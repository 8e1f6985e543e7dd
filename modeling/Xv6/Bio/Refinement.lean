import Xv6.Bio.Coherence

/-!
# What `bread` returns

Every step of callers that obey keeps the buffers coherent. So a buffer in use is
not recycled, and `bread` returns what the callers have last stored in the block.
-/

namespace Xv6.Bio

open Function Xv6.Semantics

variable {Block : Type}

namespace Cache

variable (cache : Cache Block) (b : Index) (buf : Buf Block) (p : Proc) (thread : Thread)

@[simp] theorem setBuf_buf_self : (cache.setBuf b buf).buf b = buf := update_self ..

@[simp] theorem setBuf_buf_of_ne (other : c ≠ b) :
    (cache.setBuf b buf).buf c = cache.buf c := update_of_ne other ..

@[simp] theorem setThread_thread_self : (cache.setThread p thread).thread p = thread :=
  update_self ..

@[simp] theorem setThread_thread_of_ne (other : q ≠ p) :
    (cache.setThread p thread).thread q = cache.thread q := update_of_ne other ..

@[simp] theorem setThread_buf : (cache.setThread p thread).buf = cache.buf := rfl

end Cache

/-- What a call of `p` on a buffer asks of it. -/
def Thread.Fits (p : Proc) (buf : Buf Block) : Thread → Prop
  | .sleeps dev blockno _ => buf.dev = dev ∧ buf.blockno = blockno
  | .reads dev blockno _ => (buf.dev = dev ∧ buf.blockno = blockno) ∧ buf.lock = some p
  | _ => True

namespace Thread.Fits

variable {p : Proc} {b : Index} {buf : Buf Block} {thread : Thread} {dev blockno : Nat}
  (fits : thread.Fits p buf)
include fits

theorem asks (asks : thread = .sleeps dev blockno b ∨ thread = .reads dev blockno b) :
    buf.dev = dev ∧ buf.blockno = blockno := by
  rcases asks with rfl | rfl
  · exact fits
  · exact fits.1

theorem locks (reads : thread = .reads dev blockno b) : buf.lock = some p := by
  subst reads
  exact fits.2

end Thread.Fits

namespace Observed

variable {state next : Observed Block} {p : Proc} {b : Index} {l : List Index}

namespace Listed

variable (listed : state.Listed l)
include listed

theorem mem (c : Index) : c ∈ l := listed.all.mem_iff.mpr (List.mem_finRange c)

theorem length : l.length = nbuf := by
  rw [listed.all.length_eq, List.length_finRange]

/-- A step that leaves the list alone, on the first buffer of a block. -/
theorem touch (touches : Touches state next p b) (list : next.1.list = state.1.list)
    (block : (next.1.buf b).SameBlock (state.1.buf b) ∨
      ∀ c, c ≠ b → ¬(state.1.buf c).SameBlock (next.1.buf b))
    (first : (next.1.buf b).SameBlock (state.1.buf b) →
      l.Pairwise fun a c => c = b → ¬(state.1.buf a).SameBlock (state.1.buf b)) :
    next.Listed l := by
  refine ⟨list ▸ listed.holds, listed.all, ?_⟩
  have nodup := listed.holds.nodup
  rcases block with same | fresh
  · refine ((first same).and listed.spare).imp fun {a c} ⟨first, spare⟩ shared => ?_
    obtain rfl | isC := eq_or_ne c b
    · refine absurd ?_ (first rfl)
      by_cases isA : a = c
      · rw [isA]
        exact ⟨rfl, rfl⟩
      · rw [touches.buf a isA] at shared
        exact ⟨shared.1.trans same.1, shared.2.trans same.2⟩
    rw [touches.spare_of_ne isC]
    rw [touches.buf c isC] at shared
    obtain rfl | isA := eq_or_ne a b
    · exact spare ⟨same.1.symm.trans shared.1, same.2.symm.trans shared.2⟩
    · rw [touches.buf a isA] at shared
      exact spare shared
  refine (nodup.and listed.spare).imp fun {a c} ⟨ne, spare⟩ shared => ?_
  obtain rfl | isC := eq_or_ne c b
  · rw [touches.buf a ne] at shared
    exact absurd shared (fresh a ne)
  rw [touches.spare_of_ne isC]
  rw [touches.buf c isC] at shared
  obtain rfl | isA := eq_or_ne a b
  · exact absurd ⟨shared.1.symm, shared.2.symm⟩ (fresh c isC)
  · rw [touches.buf a isA] at shared
    exact spare shared

theorem first_of_refs (used : state.refs b ≠ 0) :
    l.Pairwise fun a c => c = b → ¬(state.1.buf a).SameBlock (state.1.buf b) :=
  listed.spare.imp fun {a c} spare isB same => by
    subst isB
    exact used (spare same).1

theorem first_of_cached (found : state.1.cached dev blockno = some b) :
    (state.1.buf b).dev = dev ∧ (state.1.buf b).blockno = blockno ∧
      l.Pairwise fun a c => c = b → ¬(state.1.buf a).SameBlock (state.1.buf b) := by
  rw [Cache.cached, listed.holds.search_next (by rw [listed.length]; exact Nat.lt_succ_self _),
    List.find?_eq_some_iff_append] at found
  obtain ⟨isFor, front, rest, rfl, passed⟩ := found
  simp only [Buf.isFor, decide_eq_true_eq] at isFor
  obtain ⟨rfl, rfl⟩ := isFor
  refine ⟨rfl, rfl, ?_⟩
  have nodup := listed.holds.nodup
  rw [List.nodup_append] at nodup
  obtain ⟨_, nodupRest, apart⟩ := nodup
  refine List.pairwise_append.mpr ⟨?_, ?_, ?_⟩
  · refine List.pairwise_of_forall_mem_list fun a _ c inFront isB => ?_
    exact absurd isB (apart c inFront b (by simp))
  · have later : ∀ c ∈ rest, c ≠ b := by
      rintro c inRest rfl
      exact (List.nodup_cons.mp nodupRest).1 inRest
    refine List.pairwise_cons.mpr ⟨fun c inRest isB => absurd isB (later c inRest), ?_⟩
    exact List.pairwise_of_forall_mem_list fun a _ c inRest isB => absurd isB (later c inRest)
  · intro a inFront c _ _ same
    have notFor := passed a inFront
    simp only [Buf.isFor, Bool.not_eq_true', decide_eq_false_iff_not] at notFor
    exact notFor same

theorem not_isFor_of_not_cached (notFound : state.1.cached dev blockno = none)
    (c : Index) : ¬((state.1.buf c).dev = dev ∧ (state.1.buf c).blockno = blockno) := by
  rw [Cache.cached, listed.holds.search_next (by rw [listed.length]; exact Nat.lt_succ_self _),
    List.find?_eq_none] at notFound
  simpa [Buf.isFor] using notFound c (listed.mem c)

theorem refcnt_of_unused (found : state.1.unused = some b) : (state.1.buf b).refcnt = 0 := by
  rw [Cache.unused, listed.holds.search_prev (by rw [listed.length]; exact Nat.lt_succ_self _)]
    at found
  simpa using List.find?_some found

end Listed

theorem ofNat_succ_sub_one (n : Nat) : BitVec.ofNat 32 (n + 1) - 1 = BitVec.ofNat 32 n := by
  rw [BitVec.ofNat_add]
  exact BitVec.add_sub_cancel _ _

/-- `p` writes the lock and the count of `b`, and goes on. -/
def quietly (state : Observed Block) (p : Proc) (b : Index) (refcnt : BitVec 32)
    (lock : Option Proc) (thread : Thread) : Observed Block :=
  ((state.1.setBuf b { state.1.buf b with refcnt := refcnt, lock := lock }).setThread p thread,
    state.2)

theorem Touches.of_update {buf : Buf Block} {thread : Thread}
    (isBuf : next.1.buf = update state.1.buf b buf)
    (isThread : next.1.thread = update state.1.thread p thread)
    (disk : next.1.disk = state.1.disk) (recorded : next.2 = state.2)
    (before : (state.1.thread p).Concerns b) (after : thread.Concerns b) :
    Touches state next p b := by
  refine ⟨?_, ?_, ?_, ?_, ?_, ?_, before, ?_⟩
  · intro c other
    rw [isBuf, update_of_ne other]
  · intro q other
    rw [isThread, update_of_ne other]
  · intro c _
    rw [recorded]
  · intro c _
    rw [recorded]
  · intro dev blockno _
    rw [disk]
  · intro dev blockno _
    rw [recorded]
  · rw [isThread, update_self]
    exact after

theorem Thread.concerns_outside {thread : Thread} (outside : thread = .outside) :
    thread.Concerns b := by
  rw [outside]
  trivial

theorem Touches.of_pins (outside : state.1.thread p = .outside) :
    Touches state (state.1.setBuf b { state.1.buf b with refcnt := refcnt },
      { state.2 with pins := update state.2.pins b count }) p b :=
  ⟨fun _ other => Cache.setBuf_buf_of_ne _ _ _ other, fun _ _ => rfl,
    fun _ other => update_of_ne other .., fun _ _ => rfl, fun _ _ _ => rfl,
    fun _ _ _ => rfl, Thread.concerns_outside outside, Thread.concerns_outside outside⟩

namespace Coherent

variable (coherent : state.Coherent)
include coherent

theorem recounts (touches : Touches state next p b)
    (buf : next.1.buf b = { state.1.buf b with refcnt := refcnt, lock := lock })
    (disk : next.1.disk = state.1.disk) (stored : next.2.stored = state.2.stored)
    (dirty : next.2.dirty = state.2.dirty) (listed : ∃ l, next.Listed l)
    (fits : (next.1.thread p).Fits p (next.1.buf b))
    (others : ∀ q, q ≠ p → ((state.1.buf b).lock = some q ↔ lock = some q))
    (counted : refcnt = BitVec.ofNat 32 (next.refs b)) (limited : next.2.pins b ≤ logSize)
    (filled : lock = some p → (∀ dev blockno, next.1.thread p ≠ .reads dev blockno b) →
      (state.1.buf b).valid = true)
    (pinned : 0 < next.2.pins b → (state.1.buf b).valid = true)
    (kept : state.2.dirty b = true → lock ≠ none ∨ 0 < next.2.pins b) : next.Coherent := by
  refine coherent.touch touches ⟨fun _ _ => fits.asks, fun _ _ => fits.locks, ?_, ?_, limited, ?_, ?_,
    ?_, ?_, ?_, ?_, ?_, ?_⟩ listed
  all_goals try rw [buf]
  · exact fun q other => (others q other).mp
  · exact counted
  · exact .inl ⟨rfl, rfl⟩
  · intro q locked notReads
    obtain rfl | own := eq_or_ne q p
    · exact filled locked notReads
    · refine coherent.filled ((others q own).mpr locked) fun dev blockno reads => ?_
      exact notReads dev blockno ((touches.thread q own).trans reads)
  · exact pinned
  · rw [dirty]
    exact fun isDirty => ⟨(coherent.kept isDirty).1, kept isDirty⟩
  · rw [stored]
    exact coherent.latest
  · rw [dirty, disk]
    exact coherent.clean
  · rw [disk, stored]
    exact fun _ => ⟨rfl, rfl⟩
  · exact fun isValid => .inl ⟨isValid, rfl, rfl⟩

/-- Such a step, of which the callers keep no record, on the first buffer of a block. -/
theorem quietly (before : (state.1.thread p).Concerns b) (after : thread.Concerns b)
    (first : ∀ l, state.Listed l →
      l.Pairwise fun a c => c = b → ¬(state.1.buf a).SameBlock (state.1.buf b))
    (fits : thread.Fits p { state.1.buf b with refcnt := refcnt, lock := lock })
    (others : ∀ q, q ≠ p → ((state.1.buf b).lock = some q ↔ lock = some q))
    (refs : n + (state.1.thread p).refs b + state.held b =
      state.refs b + thread.refs b + if lock = none then 0 else 1)
    (counted : refcnt = BitVec.ofNat 32 n)
    (filled : lock = some p → (∀ dev blockno, thread ≠ .reads dev blockno b) →
      (state.1.buf b).valid = true)
    (kept : state.2.dirty b = true → lock ≠ none ∨ 0 < state.2.pins b) :
    (state.quietly p b refcnt lock thread).Coherent := by
  obtain ⟨l, listed⟩ := coherent.listed
  have touches : Touches state (state.quietly p b refcnt lock thread) p b :=
    .of_update rfl rfl rfl rfl before after
  have buf : (state.quietly p b refcnt lock thread).1.buf b =
      { state.1.buf b with refcnt := refcnt, lock := lock } := Cache.setBuf_buf_self ..
  have own : (state.quietly p b refcnt lock thread).1.thread p = thread :=
    Cache.setThread_thread_self ..
  have same : ((state.quietly p b refcnt lock thread).1.buf b).SameBlock (state.1.buf b) := by
    rw [buf]
    exact ⟨rfl, rfl⟩
  refine coherent.recounts touches buf rfl rfl rfl
    ⟨l, listed.touch touches rfl (.inl same) fun _ => first l listed⟩ ?_ others ?_
    (coherent.limited b) ?_ coherent.pinned kept
  · rwa [own, buf]
  · have balance := touches.balance
    have pins : (state.quietly p b refcnt lock thread).2.pins = state.2.pins := rfl
    have held : (state.quietly p b refcnt lock thread).held b = if lock = none then 0 else 1 := by
      rw [Observed.held, buf]
    rw [own, held, pins] at balance
    rw [show (state.quietly p b refcnt lock thread).refs b = n by omega, counted]
  · rwa [own]

/-- The holder of a buffer that is back from `bread` has its contents. -/
theorem valid_of_holder (outside : state.1.thread p = .outside)
    (locked : (state.1.buf b).lock = some p) : (state.1.buf b).valid = true := by
  refine coherent.filled locked fun dev blockno reads => ?_
  rw [outside] at reads
  cases reads

theorem counted_succ (b : Index) :
    (state.1.buf b).refcnt + 1 = BitVec.ofNat 32 (state.refs b + 1) := by
  rw [coherent.counted b, BitVec.ofNat_add]
  rfl

theorem counted_pred (used : state.refs b ≠ 0) :
    (state.1.buf b).refcnt - 1 = BitVec.ofNat 32 (state.refs b - 1) := by
  obtain ⟨n, refs⟩ := Nat.exists_eq_succ_of_ne_zero used
  rw [coherent.counted b, refs]
  exact ofNat_succ_sub_one n

theorem panics (stuck : Bool) (outside : state.1.thread p = .outside) :
    Coherent (({ state.1.setThread p .panicked with stuck := stuck }, state.2) : Observed Block) := by
  obtain ⟨l, listed⟩ := coherent.listed
  set next : Observed Block := ({ state.1.setThread p .panicked with stuck := stuck }, state.2)
  have own : next.1.thread p = .panicked := Cache.setThread_thread_self ..
  have others : ∀ q, q ≠ p → next.1.thread q = state.1.thread q := fun q other =>
    Cache.setThread_thread_of_ne _ _ _ other
  have refs : ∀ b, next.refs b = state.refs b := by
    intro b
    have same : ∀ q, (next.1.thread q).refs b = (state.1.thread q).refs b := by
      intro q
      by_cases isP : q = p
      · rw [isP, own, outside]
        rfl
      · rw [others q isP]
    simp only [Observed.refs, same]
    rfl
  have inCall : ∀ {q thread}, next.1.thread q = thread → thread ≠ .panicked →
      state.1.thread q = thread := by
    intro q thread isAt notPanicked
    refine (others q ?_).symm.trans isAt
    rintro rfl
    exact notPanicked (isAt.symm.trans own)
  refine { coherent with asks := ?_, locks := ?_, counted := ?_, listed := ⟨l, ?_⟩, filled := ?_ }
  · intro q dev blockno b asks
    exact coherent.asks (asks.imp (inCall · (by simp)) (inCall · (by simp)))
  · intro q dev blockno b reads
    exact coherent.locks (inCall reads (by simp))
  · intro b
    rw [refs b]
    exact coherent.counted b
  · refine ⟨listed.holds, listed.all, listed.spare.imp fun {a b} spare same => ?_⟩
    rw [Spare, refs b]
    exact spare same
  intro b q locked notReads
  refine coherent.filled locked fun dev blockno reads => ?_
  refine notReads dev blockno ((others q ?_).trans reads)
  rintro rfl
  rw [outside] at reads
  cases reads

theorem bread_cached (outside : state.1.thread p = .outside)
    (found : state.1.cached dev blockno = some b) :
    (state.quietly p b ((state.1.buf b).refcnt + 1) (state.1.buf b).lock
      (.sleeps dev blockno b)).Coherent := by
  obtain ⟨l, listed⟩ := coherent.listed
  obtain ⟨isDev, isBlockno, -⟩ := listed.first_of_cached found
  refine coherent.quietly (Thread.concerns_outside outside) rfl
    (fun l listed => (listed.first_of_cached found).2.2) ⟨isDev, isBlockno⟩ (fun _ _ => Iff.rfl) ?_
    (coherent.counted_succ b) ?_ fun dirty => (coherent.kept dirty).2
  · simp only [outside, held, Thread.refs, if_pos]
  · exact fun locked _ => coherent.valid_of_holder outside locked

theorem bread_recycles (touches : Touches state next p b)
    (outside : state.1.thread p = .outside) (notFound : state.1.cached dev blockno = none)
    (found : state.1.unused = some b)
    (buf : next.1.buf b =
      { state.1.buf b with dev := dev, blockno := blockno, valid := false, refcnt := 1 })
    (thread : next.1.thread p = .sleeps dev blockno b) (list : next.1.list = state.1.list)
    (disk : next.1.disk = state.1.disk) (recorded : next.2 = state.2) : next.Coherent := by
  obtain ⟨l, listed⟩ := coherent.listed
  have unused := coherent.refs_eq_zero (listed.refcnt_of_unused found)
  have absent := listed.not_isFor_of_not_cached notFound
  have unlocked : (state.1.buf b).lock = none := by
    by_contra locked
    exact refs_pos_of_lock locked unused
  have unpinned : ¬0 < state.2.pins b := fun pinned => refs_pos_of_pins pinned unused
  have notDirty : state.2.dirty b = false := by
    by_contra isDirty
    rcases (coherent.kept (Bool.not_eq_false _ ▸ isDirty)).2 with locked | pinned
    · exact locked unlocked
    · exact unpinned pinned
  have fresh : ∀ c, c ≠ b → ¬(state.1.buf c).SameBlock (next.1.buf b) := by
    intro c _ same
    rw [buf] at same
    exact absent c same
  have refs : next.refs b = 1 := by
    have balance := touches.balance
    simp only [outside, thread, held, buf, unlocked, recorded, Thread.refs, if_pos] at balance
    omega
  have listed' : next.Listed l := by
    refine listed.touch touches list (.inr fresh) fun same => ?_
    rw [buf] at same
    exact absurd ⟨same.1.symm, same.2.symm⟩ (absent b)
  have fits : (next.1.thread p).Fits p (next.1.buf b) := by
    rw [thread, buf]
    exact ⟨rfl, rfl⟩
  refine coherent.touch touches ⟨fun _ _ => fits.asks, fun _ _ => fits.locks, ?_, ?_, ?_,
    .inr ⟨unused, fresh⟩, ?_, ?_, ?_, ?_, ?_, ?_, ?_⟩ ⟨l, listed'⟩
  · intro q _ locked
    rw [unlocked] at locked
    cases locked
  · rw [buf, refs]
    rfl
  · rw [recorded]
    exact coherent.limited b
  · intro q locked
    rw [buf] at locked
    exact absurd (unlocked.symm.trans locked) (by simp)
  · intro pinned
    rw [recorded] at pinned
    exact absurd pinned unpinned
  · intro isDirty
    rw [recorded, notDirty] at isDirty
    cases isDirty
  · intro valid
    rw [buf] at valid
    cases valid
  · intro valid
    rw [buf] at valid
    cases valid
  · intro _
    rw [disk, recorded]
    exact ⟨rfl, rfl⟩
  · intro valid
    rw [disk, recorded, coherent.clean valid notDirty]
    exact .inr (coherent.latest valid)

theorem acquiresleep (sleeps : state.1.thread p = .sleeps dev blockno b)
    (unlocked : (state.1.buf b).lock = none) :
    (state.quietly p b (state.1.buf b).refcnt (some p) (.reads dev blockno b)).Coherent := by
  have used := coherent.refs_pos_of_asks (.inl sleeps)
  refine coherent.quietly (by rw [sleeps]; rfl) rfl (fun l listed => listed.first_of_refs used)
    ⟨coherent.asks (.inl sleeps), rfl⟩ ?_ ?_ (coherent.counted b) ?_ fun _ => .inl (by simp)
  · intro q other
    simp [unlocked, other.symm]
  · simp [sleeps, held, unlocked, Thread.refs]
  · exact fun _ notReads => absurd rfl (notReads dev blockno)

theorem brelse (outside : state.1.thread p = .outside) (locked : (state.1.buf b).lock = some p)
    (obeys : state.2.dirty b = true → 0 < state.2.pins b) :
    (state.quietly p b (state.1.buf b).refcnt none (.drops b)).Coherent := by
  have used : state.refs b ≠ 0 := refs_pos_of_lock (by simp [locked])
  refine coherent.quietly (Thread.concerns_outside outside) rfl
    (fun l listed => listed.first_of_refs used) trivial ?_ ?_ (coherent.counted b) ?_
    fun dirty => .inr (obeys dirty)
  · intro q other
    simp [locked, other.symm]
  · simp [outside, held, locked, Thread.refs]
  · intro isLocked
    cases isLocked

/-- A buffer becomes the most recently used one. No other buffer for its block is in use. -/
theorem moveFront (alone : ∀ c, c ≠ b → (state.1.buf c).SameBlock (state.1.buf b) → state.Spare c) :
    Coherent (({ state.1 with list := (state.1.list.unlink b).pushFront b }, state.2) :
      Observed Block) := by
  obtain ⟨l, listed⟩ := coherent.listed
  have nodup := listed.holds.nodup
  refine { coherent with listed := ⟨b :: l.erase b, listed.holds.moveFront (listed.mem b),
    (List.perm_cons_erase (listed.mem b)).symm.trans listed.all, List.pairwise_cons.mpr ⟨?_, ?_⟩⟩ }
  · intro c member shared
    refine alone c ?_ ⟨shared.1.symm, shared.2.symm⟩
    rintro rfl
    exact nodup.not_mem_erase member
  · exact listed.spare.sublist List.erase_sublist

/-- `brelse` drops its reference. Without references the buffer becomes the most recently used one. -/
theorem drop (drops : state.1.thread p = .drops b) :
    Coherent ((((state.1.drop b).setThread p .outside), state.2) : Observed Block) := by
  have used : state.refs b ≠ 0 := refs_pos_of_thread (p := p) (by simp [drops, Thread.refs])
  have before : (state.1.thread p).Concerns b := by
    rw [drops]
    rfl
  have dropped : (state.quietly p b ((state.1.buf b).refcnt - 1) (state.1.buf b).lock
      .outside).Coherent := by
    refine coherent.quietly before trivial (fun l listed => listed.first_of_refs used) trivial
      (fun _ _ => Iff.rfl) ?_ (coherent.counted_pred used) ?_ fun dirty => (coherent.kept dirty).2
    · simp only [drops, held, Thread.refs, if_pos]
      omega
    · intro locked _
      refine coherent.filled locked fun dev blockno reads => ?_
      rw [drops] at reads
      cases reads
  rw [Cache.drop]
  split
  · refine dropped.moveFront fun c other same => ?_
    have touches : Touches state (state.quietly p b ((state.1.buf b).refcnt - 1)
      (state.1.buf b).lock .outside) p b := .of_update rfl rfl rfl rfl before trivial
    rw [touches.spare_of_ne other]
    rw [touches.buf c other] at same
    by_contra notSpare
    refine other (coherent.eq_of_sameBlock ?_ notSpare fun spare => used spare.1)
    simpa [Observed.quietly, Buf.SameBlock] using same
  · exact dropped

theorem pins (outside : state.1.thread p = .outside)
    (used : state.refs b ≠ 0) (refs : n + state.2.pins b = state.refs b + count)
    (counted : refcnt = BitVec.ofNat 32 n) (limited : count ≤ logSize)
    (valid : (state.1.buf b).valid = true)
    (kept : state.2.dirty b = true → (state.1.buf b).lock ≠ none ∨ 0 < count) :
    Coherent ((state.1.setBuf b { state.1.buf b with refcnt := refcnt },
      { state.2 with pins := update state.2.pins b count }) : Observed Block) := by
  obtain ⟨l, listed⟩ := coherent.listed
  set next : Observed Block := (state.1.setBuf b { state.1.buf b with refcnt := refcnt },
    { state.2 with pins := update state.2.pins b count })
  have touches : Touches state next p b := .of_pins outside
  have buf : next.1.buf b = { state.1.buf b with refcnt := refcnt } := Cache.setBuf_buf_self ..
  have pins : next.2.pins b = count := update_self ..
  have same : (next.1.buf b).SameBlock (state.1.buf b) := by
    rw [buf]
    exact ⟨rfl, rfl⟩
  refine coherent.recounts touches buf rfl rfl rfl
    ⟨l, listed.touch touches rfl (.inl same) fun _ => listed.first_of_refs used⟩ ?_
    (fun _ _ => Iff.rfl) ?_ (pins ▸ limited) (fun _ _ => valid) (fun _ => valid) (pins ▸ kept)
  · rw [show next.1.thread p = .outside from outside]
    trivial
  have balance := touches.balance
  have held : next.held b = state.held b := by rw [Observed.held, buf, Observed.held]
  have thread : next.1.thread p = state.1.thread p := rfl
  rw [thread, held, pins] at balance
  rw [show next.refs b = n by omega, counted]

/-- The holder fills the buffer, writes into it or writes it to the disk. -/
theorem holder (touches : Touches state next p b) (locked : (state.1.buf b).lock = some p)
    (noRefs : (state.1.thread p).refs b = 0) (valid : (next.1.buf b).valid = true)
    (buf : next.1.buf b =
      { state.1.buf b with data := (next.1.buf b).data, valid := (next.1.buf b).valid })
    (thread : next.1.thread p = .outside) (list : next.1.list = state.1.list)
    (pins : next.2.pins = state.2.pins)
    (latest : next.2.stored (state.1.buf b).dev (state.1.buf b).blockno = (next.1.buf b).data)
    (clean : next.2.dirty b = false →
      next.1.disk (state.1.buf b).dev (state.1.buf b).blockno = (next.1.buf b).data)
    (invalid : (state.1.buf b).valid = false →
      next.1.disk = state.1.disk ∧ next.2.stored = state.2.stored) : next.Coherent := by
  obtain ⟨l, listed⟩ := coherent.listed
  have same : (next.1.buf b).SameBlock (state.1.buf b) := by
    rw [buf]
    exact ⟨rfl, rfl⟩
  have lock : (next.1.buf b).lock = (state.1.buf b).lock := by rw [buf]
  have refs : next.refs b = state.refs b := by
    have balance := touches.balance
    rw [noRefs, thread] at balance
    simp only [held, Thread.refs, pins, lock] at balance
    omega
  have listed' := listed.touch touches list (.inl same) fun _ =>
    listed.first_of_refs (refs_pos_of_lock (by simp [locked]))
  have fits : (next.1.thread p).Fits p (next.1.buf b) := by
    rw [thread]
    trivial
  refine coherent.touch touches ⟨fun _ _ => fits.asks, fun _ _ => fits.locks, ?_, ?_, ?_, .inl same,
    fun _ _ _ => valid, fun _ => valid, ?_, ?_, ?_, ?_, fun _ => .inl ⟨valid, same⟩⟩ ⟨l, listed'⟩
  · intro q _ isLocked
    rw [lock]
    exact isLocked
  · rw [buf, refs]
    exact coherent.counted b
  · rw [pins]
    exact coherent.limited b
  · intro _
    rw [lock]
    exact ⟨valid, .inl (by simp [locked])⟩
  · intro _
    rw [same.1, same.2, latest]
  · intro _ notDirty
    rw [same.1, same.2]
    exact clean notDirty
  · intro isInvalid
    rw [(invalid isInvalid).1, (invalid isInvalid).2]
    exact ⟨rfl, rfl⟩

/-- What `bread` finds in the buffer or on the disk is what was last stored. -/
theorem fetch (touches : Touches state next p b) (reads : state.1.thread p = .reads dev blockno b)
    (valid : (next.1.buf b).valid = true)
    (buf : next.1.buf b =
      { state.1.buf b with data := (next.1.buf b).data, valid := (next.1.buf b).valid })
    (data : (next.1.buf b).data = if (state.1.buf b).valid then (state.1.buf b).data
      else state.1.disk (state.1.buf b).dev (state.1.buf b).blockno)
    (thread : next.1.thread p = .outside) (list : next.1.list = state.1.list)
    (disk : next.1.disk = state.1.disk) (recorded : next.2 = state.2) : next.Coherent := by
  have locked := coherent.locks reads
  have used : state.refs b ≠ 0 := refs_pos_of_lock (by simp [locked])
  have noRefs : (state.1.thread p).refs b = 0 := by
    rw [reads]
    rfl
  refine coherent.holder touches locked noRefs valid buf thread list (by rw [recorded]) ?_ ?_
    fun _ => ⟨disk, by rw [recorded]⟩
  · rw [data, recorded]
    cases before : (state.1.buf b).valid with
    | true => exact (coherent.latest before).symm
    | false =>
      -- The disk has the contents of a block that no buffer has.
      refine (coherent.absent fun c isDev isBlockno => ?_).symm
      by_contra isValid
      have isB := coherent.eq_of_sameBlock ⟨isDev, isBlockno⟩ (fun spare => isValid spare.2)
        fun spare => used spare.1
      exact isValid (isB ▸ before)
  · intro notDirty
    rw [data, disk]
    rw [recorded] at notDirty
    cases before : (state.1.buf b).valid with
    | true => exact coherent.clean before notDirty
    | false => rfl

end Coherent

theorem Coherent.step (coherent : state.Coherent)
    (obeys : Obeys state label) (observed : observedStep state label = some next) :
    next.Coherent := by
  obtain ⟨cache, ran, rfl⟩ := Option.map_eq_some_iff.mp observed
  cases label with
  | bread p dev blockno =>
    simp only [Bio.step, Option.ite_none_left_eq_some, not_or, not_not] at ran
    obtain ⟨⟨-, outside⟩, ran⟩ := ran
    have before : ∀ b, (state.1.thread p).Concerns b := fun b =>
      Thread.concerns_outside outside
    simp only [Cache.bget] at ran
    cases found : state.1.cached dev blockno with
    | some b =>
      rw [found] at ran
      cases ran
      exact coherent.bread_cached outside found
    | none =>
      rw [found] at ran
      cases unused : state.1.unused with
      | some b =>
        rw [unused] at ran
        cases ran
        exact coherent.bread_recycles (b := b) (.of_update rfl rfl rfl rfl (before b) rfl)
          outside found unused (Cache.setBuf_buf_self ..)
          (Cache.setThread_thread_self ..) rfl rfl rfl
      | none =>
        rw [unused] at ran
        cases ran
        exact coherent.panics true outside
  | acquiresleep p =>
    simp only [Bio.step] at ran
    split at ran
    · rename_i dev blockno b sleeps
      split at ran
      · rename_i unlocked
        cases ran
        exact coherent.acquiresleep sleeps unlocked
      · cases ran
    · cases ran
  | fetch p =>
    simp only [Bio.step] at ran
    split at ran
    · rename_i dev blockno b reads
      cases ran
      refine coherent.fetch (b := b) (.of_update rfl rfl rfl rfl (by rw [reads]; rfl) trivial)
        reads ?_ ?_ ?_ (Cache.setThread_thread_self ..) rfl rfl rfl
      all_goals cases valid : (state.1.buf b).valid
      all_goals simp [valid]
      rw [← valid]
    · cases ran
  | modify p b data =>
    simp only [Bio.step, Option.ite_none_left_eq_some, not_not] at ran
    obtain ⟨outside, ran⟩ := ran
    cases ran
    have concerns := Thread.concerns_outside (b := b) outside
    have valid := coherent.valid_of_holder outside obeys
    refine coherent.holder (p := p) (b := b) ⟨?_, fun _ _ => rfl, fun _ _ => rfl, ?_,
      fun _ _ _ => rfl, ?_, concerns, concerns⟩ obeys (by rw [outside]; rfl) ?_ ?_ outside rfl rfl
      ?_ ?_ fun isInvalid => absurd (isInvalid.symm.trans valid) (by simp)
    · exact fun c other => Cache.setBuf_buf_of_ne _ _ _ other
    · exact fun c other => update_of_ne other ..
    · exact fun dev blockno ne => if_neg ne
    · rw [Cache.setBuf_buf_self]
      exact valid
    · rw [Cache.setBuf_buf_self]
    · rw [Cache.setBuf_buf_self]
      exact if_pos ⟨rfl, rfl⟩
    · simp [record]
  | bwrite p b =>
    simp only [Bio.step, Option.ite_none_left_eq_some, not_not] at ran
    obtain ⟨outside, ran⟩ := ran
    have concerns := Thread.concerns_outside (b := b) outside
    split at ran
    · rename_i notLocked
      cases ran
      rw [record, if_neg notLocked]
      exact coherent.panics state.1.stuck outside
    rename_i locked
    rw [not_not] at locked
    cases ran
    rw [record, if_pos locked]
    have valid := coherent.valid_of_holder outside locked
    refine coherent.holder (p := p) (b := b) ⟨fun _ _ => rfl, fun _ _ => rfl, fun _ _ => rfl,
      ?_, ?_, fun _ _ _ => rfl, concerns, concerns⟩ locked (by rw [outside]; rfl) valid rfl outside
      rfl rfl ?_ ?_ fun isInvalid => absurd (isInvalid.symm.trans valid) (by simp)
    · exact fun c other => update_of_ne other ..
    · exact fun dev blockno ne => if_neg ne
    · exact (coherent.latest valid).symm
    · exact fun _ => if_pos ⟨rfl, rfl⟩
  | brelse p b =>
    simp only [Bio.step, Option.ite_none_left_eq_some, not_not] at ran
    obtain ⟨outside, ran⟩ := ran
    split at ran
    · cases ran
      exact coherent.panics state.1.stuck outside
    · rename_i locked
      rw [not_not] at locked
      cases ran
      exact coherent.brelse outside locked obeys
  | drop p =>
    simp only [Bio.step] at ran
    split at ran
    · rename_i b drops
      split at ran
      · cases ran
      · cases ran
        exact coherent.drop drops
    · cases ran
  | bpin p b =>
    obtain ⟨locked, few⟩ := obeys
    simp only [Bio.step, Option.ite_none_left_eq_some, not_or, not_not] at ran
    obtain ⟨⟨-, outside⟩, ran⟩ := ran
    cases ran
    exact coherent.pins outside (refs_pos_of_lock (by simp [locked])) (by omega)
      (coherent.counted_succ b) few (coherent.valid_of_holder outside locked) fun _ => .inr (by omega)
  | bunpin p b =>
    obtain ⟨pinned, holds⟩ := obeys
    simp only [Bio.step, Option.ite_none_left_eq_some, not_or, not_not] at ran
    obtain ⟨⟨-, outside⟩, ran⟩ := ran
    cases ran
    have limited := coherent.limited b
    have used := refs_pos_of_pins pinned
    refine coherent.pins outside used (by omega) (coherent.counted_pred used) (by omega)
      (coherent.pinned pinned) fun isDirty => .inl (by simp [holds isDirty])

theorem binit_holds : binit.Holds (List.finRange nbuf).reverse := by
  have push : ∀ (l : List Index) (ring : LinkedRing Index) (before : List Index), ring.Holds before →
      (∀ b ∈ l, b ∉ before) → l.Nodup → (l.foldl LinkedRing.pushFront ring).Holds (l.reverse ++ before) := by
    intro l
    induction l with
    | nil => exact fun ring before holds _ _ => holds
    | cons b l ih =>
      intro ring before holds fresh nodup
      rw [List.foldl_cons, List.reverse_cons, List.append_assoc]
      obtain ⟨notAgain, nodup⟩ := List.nodup_cons.mp nodup
      refine ih _ _ (holds.pushFront (fresh b (by simp))) ?_ nodup
      intro c inRest inBefore
      rcases List.mem_cons.mp inBefore with rfl | inBefore
      · exact notAgain inRest
      · exact fresh c (by simp [inRest]) inBefore
  have holds := push (List.finRange nbuf) .empty [] ⟨⟨rfl, rfl⟩, List.nodup_nil⟩
    (fun _ _ mem => by cases mem) (List.nodup_finRange nbuf)
  rwa [List.append_nil] at holds

theorem Initial.coherent (initial : state.Initial) : state.Coherent := by
  obtain ⟨⟨list, outside, _, bufs⟩, stored, unpinned, notDirty⟩ := initial
  have refs : ∀ b, state.refs b = 0 := by
    intro b
    obtain ⟨_, _, _, unlocked, _⟩ := bufs b
    simp [Observed.refs, held, outside, Thread.refs, unlocked, unpinned]
  refine ⟨?_, ?_, ?_, ?_, ⟨_, list ▸ binit_holds, List.reverse_perm _, ?_⟩, ?_, ?_, ?_, ?_, ?_, ?_,
    ?_⟩
  · intro p dev blockno b asks
    rw [outside] at asks
    rcases asks with asks | asks <;> cases asks
  · intro p dev blockno b reads
    rw [outside] at reads
    cases reads
  · intro b
    rw [refs b, (bufs b).2.2.2.2]
    rfl
  · intro b
    rw [unpinned b]
    exact Nat.zero_le _
  · exact List.pairwise_of_forall fun a b _ => ⟨refs b, (bufs b).1⟩
  · intro a b device
    exact absurd (bufs a).2.1 device
  · intro b p locked
    rw [(bufs b).2.2.2.1] at locked
    cases locked
  · intro b pinned
    rw [unpinned b] at pinned
    exact absurd pinned (Nat.lt_irrefl 0)
  · intro b dirty
    rw [notDirty b] at dirty
    cases dirty
  · intro b valid
    rw [(bufs b).1] at valid
    cases valid
  · intro b valid
    rw [(bufs b).1] at valid
    cases valid
  · intro dev blockno _
    rw [stored]

/-- The cache holds the array of blocks `stored`: in the buffers that are pinned, and
on the disk where no buffer of the block is pinned or held. -/
structure Refines (state : Observed Block) : Prop where
  single : ∀ a b, (state.1.buf a).dev ≠ 0 → (state.1.buf a).SameBlock (state.1.buf b) → a = b
  permutation : ∃ l, state.1.list.Holds l ∧ l.Perm (List.finRange nbuf)
  counted : ∀ b, (state.1.buf b).lock ≠ none ∨ 0 < state.2.pins b → (state.1.buf b).refcnt ≠ 0
  inCache : ∀ b, 0 < state.2.pins b → (state.1.buf b).valid = true ∧
    (state.1.buf b).data = state.2.stored (state.1.buf b).dev (state.1.buf b).blockno
  onDisk : ∀ dev blockno, (∀ b, (state.1.buf b).dev = dev → (state.1.buf b).blockno = blockno →
    state.2.pins b = 0 ∧ (state.1.buf b).lock = none) →
      state.1.disk dev blockno = state.2.stored dev blockno

/-- A step recycles no buffer with references, and where it is the return of
`bread(dev, blockno)`, the buffer holds the contents of that block. -/
structure Serves (state : Observed Block) (label : Label Block) (next : Observed Block) : Prop where
  keeps : ∀ b, (state.1.buf b).refcnt ≠ 0 → (next.1.buf b).SameBlock (state.1.buf b)
  returns : ∀ p dev blockno b, label = .fetch p → state.1.thread p = .reads dev blockno b →
    (next.1.buf b).dev = dev ∧ (next.1.buf b).blockno = blockno ∧
      (next.1.buf b).lock = some p ∧ (next.1.buf b).valid = true ∧
      (next.1.buf b).data = state.2.stored dev blockno

theorem Coherent.refines (coherent : state.Coherent) : state.Refines := by
  obtain ⟨l, listed⟩ := coherent.listed
  refine ⟨fun a b => coherent.single, ⟨l, listed.holds, listed.all⟩, ?_, ?_, ?_⟩
  · intro b used zero
    have unused := coherent.refs_eq_zero zero
    rcases used with locked | pinned
    · exact refs_pos_of_lock locked unused
    · exact refs_pos_of_pins pinned unused
  · intro b pinned
    exact ⟨coherent.pinned pinned, coherent.latest (coherent.pinned pinned)⟩
  intro dev blockno free
  by_cases present : ∃ b, (state.1.buf b).dev = dev ∧ (state.1.buf b).blockno = blockno ∧
      (state.1.buf b).valid = true
  · obtain ⟨b, rfl, rfl, valid⟩ := present
    obtain ⟨unpinned, unlocked⟩ := free b rfl rfl
    have notDirty : state.2.dirty b = false := by
      by_contra isDirty
      rcases (coherent.kept (Bool.not_eq_false _ ▸ isDirty)).2 with locked | pinned
      · exact locked unlocked
      · omega
    rw [coherent.clean valid notDirty, coherent.latest valid]
  · refine coherent.absent fun b isDev isBlockno => ?_
    by_contra valid
    exact present ⟨b, isDev, isBlockno, Bool.not_eq_false _ ▸ valid⟩

theorem setBuf_sameBlock {cache : Cache Block} (same : buf.SameBlock (cache.buf b)) (c : Index) :
    ((cache.setBuf b buf).buf c).SameBlock (cache.buf c) := by
  obtain rfl | isB := eq_or_ne c b
  · rw [Cache.setBuf_buf_self]
    exact same
  · rw [Cache.setBuf_buf_of_ne _ _ _ isB]
    exact ⟨rfl, rfl⟩

theorem Coherent.keeps (coherent : state.Coherent)
    (ran : Bio.step state.1 label = some cache) (b : Index)
    (used : (state.1.buf b).refcnt ≠ 0) : (cache.buf b).SameBlock (state.1.buf b) := by
  have refl : (state.1.buf b).SameBlock (state.1.buf b) := ⟨rfl, rfl⟩
  cases label with
  | bread p dev blockno =>
    obtain ⟨l, listed⟩ := coherent.listed
    simp only [Bio.step, Cache.bget] at ran
    split at ran
    · cases ran
    cases found : state.1.cached dev blockno with
    | some c =>
      rw [found] at ran
      cases ran
      exact setBuf_sameBlock (by exact ⟨rfl, rfl⟩) b
    | none =>
      rw [found] at ran
      cases unused : state.1.unused with
      | some c =>
        rw [unused] at ran
        cases ran
        have other : b ≠ c := by
          rintro rfl
          exact used (listed.refcnt_of_unused unused)
        rw [Cache.setThread_buf, Cache.setBuf_buf_of_ne _ _ _ other]
        exact refl
      | none =>
        rw [unused] at ran
        cases ran
        exact refl
  | fetch p =>
    simp only [Bio.step] at ran
    split at ran
    · cases ran
      refine setBuf_sameBlock ?_ b
      split <;> exact ⟨rfl, rfl⟩
    · cases ran
  | drop p =>
    simp only [Bio.step, Cache.drop] at ran
    split at ran
    · split at ran
      · cases ran
      · cases ran
        split <;> exact setBuf_sameBlock (by exact ⟨rfl, rfl⟩) b
    · cases ran
  | acquiresleep p =>
    simp only [Bio.step] at ran
    split at ran
    · split at ran
      · cases ran
        exact setBuf_sameBlock (by exact ⟨rfl, rfl⟩) b
      · cases ran
    · cases ran
  | modify p c data | bpin p c | bunpin p c =>
    simp only [Bio.step] at ran
    split at ran
    · cases ran
    · cases ran
      exact setBuf_sameBlock (by exact ⟨rfl, rfl⟩) b
  | bwrite p c =>
    simp only [Bio.step] at ran
    split at ran
    · cases ran
    · split at ran <;> (cases ran; exact refl)
  | brelse p c =>
    simp only [Bio.step] at ran
    split at ran
    · cases ran
    split at ran
    · cases ran
      exact refl
    · cases ran
      exact setBuf_sameBlock (by exact ⟨rfl, rfl⟩) b

theorem Coherent.serves (coherent : state.Coherent)
    (obeys : Obeys state label) (observed : observedStep state label = some next) :
    state.Serves label next := by
  have nextCoherent := coherent.step obeys observed
  obtain ⟨cache, ran, rfl⟩ := Option.map_eq_some_iff.mp observed
  refine ⟨coherent.keeps ran, ?_⟩
  rintro p dev blockno b rfl reads
  obtain ⟨rfl, rfl⟩ := coherent.asks (.inr reads)
  have locked := coherent.locks reads
  have used : (state.1.buf b).refcnt ≠ 0 := coherent.refines.counted b (.inl (by simp [locked]))
  obtain ⟨sameDev, sameBlockno⟩ := coherent.keeps ran b used
  simp only [Bio.step, reads] at ran
  cases ran
  have valid : ((state.1.setBuf b (if (state.1.buf b).valid then state.1.buf b else
      { state.1.buf b with
        data := state.1.disk (state.1.buf b).dev (state.1.buf b).blockno, valid := true })).buf
        b).valid = true := by
    cases before : (state.1.buf b).valid <;> simp [before]
  refine ⟨sameDev, sameBlockno, ?_, valid, ?_⟩
  · rw [Cache.setThread_buf, Cache.setBuf_buf_self]
    split <;> exact locked
  · have latest := nextCoherent.latest (b := b) valid
    rw [sameDev, sameBlockno] at latest
    exact latest

end Observed

theorem coherent_of_runs
    (run : ((bcache Block).restrict Obeys).Runs start labels state) : state.Coherent := by
  have initial : ∀ state, ((bcache Block).restrict Obeys).Initial state → state.Coherent :=
    fun _ valid => Observed.Initial.coherent valid
  exact run.invariant initial fun {_ _ _} coherent transition =>
    coherent.step transition.2 transition.1

/-- In every run of callers that obey, the cache is an array of blocks: each of its
states holds the blocks as they were last stored, and `bread` returns them. -/
theorem bcache_refines {start state : Observed Block} {labels : List (Label Block)}
    (run : ((bcache Block).restrict Obeys).Runs start labels state) :
    state.Refines ∧ ∀ label next, ((bcache Block).restrict Obeys).Step state label next →
      state.Serves label next := by
  have coherent := coherent_of_runs run
  exact ⟨coherent.refines, fun label next transition => coherent.serves transition.2 transition.1⟩

/-- A disk on which the contents of a block are its number. -/
def numbered : Observed Nat :=
  ({ buf := fun _ => ⟨false, 0, 0, none, 0, 0⟩
     list := binit
     disk := fun _ blockno => blockno
     thread := fun _ => .outside
     stuck := false },
   { stored := fun _ blockno => blockno, pins := fun _ => 0, dirty := fun _ => false })

theorem numbered_initial : numbered.Initial :=
  ⟨⟨rfl, fun _ => rfl, rfl, fun _ => ⟨rfl, rfl, rfl, rfl, rfl⟩⟩, rfl, fun _ => rfl, fun _ => rfl⟩

/-- The first two processes. -/
def first : Proc := ⟨0, zero_lt_nproc⟩

def second : Proc := ⟨1, one_lt_nproc⟩

/-- A process modifies a block under the log, and another one asks for it. -/
def logsBlock : List (Label Nat) :=
  [.bread first 1 5, .acquiresleep first, .fetch first, .modify first 0 7, .bpin first 0,
    .brelse first 0, .bread second 1 5, .drop first, .acquiresleep second]

theorem bcache_refines_logsBlock :
    ∃ state : Observed Nat, ((bcache Nat).restrict Obeys).Runs numbered logsBlock state ∧
      state.1.thread second = .reads 1 5 0 ∧ state.2.stored 1 5 = 7 ∧
      state.Refines ∧ ∀ label next, ((bcache Nat).restrict Obeys).Step state label next →
        state.Serves label next := by
  obtain ⟨state, run, reads, stored⟩ : ∃ state : Observed Nat,
      ((bcache Nat).restrict Obeys).Runs numbered logsBlock state ∧
      state.1.thread second = .reads 1 5 0 ∧ state.2.stored 1 5 = 7 :=
    TransitionSystem.exists_runs_restrict numbered_initial (by decide +kernel)
  exact ⟨state, run, reads, stored, bcache_refines run⟩

end Xv6.Bio
