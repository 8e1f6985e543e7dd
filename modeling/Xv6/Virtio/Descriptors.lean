import Xv6.Virtio.Chains

/-!
# The descriptors of the disk

In every state the descriptors are the free ones and those of the requests in flight,
three for each. The heads of the requests that are not done are each in one place: in
the available ring, with the device, or in the used ring. So a completion that the
interrupt handler finds is that of one request, and neither ring ever holds more than
its size, also when the counters wrap.
-/

namespace Xv6.Virtio

open Function Xv6.Semantics

variable {P B : Type}

/-- The descriptors that a process has. -/
def Task.chain : Task B → List Index
  | .sleeps _ i j k => [i, j, k]
  | _ => []

/-- The buffer that a process has given to `virtio_disk_rw`. -/
def Task.buf : Task B → Option B
  | .waits b _ _ => some b
  | .sleeps b _ _ _ => some b
  | _ => none

/-- The heads of the chains in the available ring. -/
def State.avail (state : State P B) : List Index :=
  window state.disk.availRing state.fetched (gap state.fetched state.disk.availIdx)

/-- The heads of the chains in the used ring. -/
def State.used (state : State P B) : List Index :=
  window state.disk.usedRing state.disk.usedIdx (gap state.disk.usedIdx state.disk.usedRingIdx)

/-- The heads of the requests that are not done. -/
def State.heads (state : State P B) : List Index := state.avail ++ state.pending ++ state.used

/-- The request of a process that is not done. -/
def State.Awaits (state : State P B) (p : P) (head : Index) : Prop :=
  ∃ b j k, state.task p = .sleeps b head j k ∧ state.busy b = true

/-- What holds after every step. -/
structure Sound (state : State P B) : Prop where
  locked : ∀ {p b}, (state.task p).buf = some b → state.lock b = some p
  linked : ∀ {p b i j k}, state.task p = .sleeps b i j k → state.disk.Linked b i j k
  apart : ∀ {p q d}, d ∈ (state.task p).chain → d ∈ (state.task q).chain → p = q
  owned : ∀ d, state.disk.free d = false ↔ ∃ p, d ∈ (state.task p).chain
  nodup : state.heads.Nodup
  heads : ∀ h, h ∈ state.heads ↔ ∃ p, state.Awaits p h

theorem num_dvd : num ∣ 2 ^ 16 := by decide

variable {state next : State P B} {p q : P} {b : B} {i j k d h : Index}

/-! ## Processes and their chains -/

theorem State.Awaits.mem_chain (awaits : state.Awaits p h) : h ∈ (state.task p).chain := by
  obtain ⟨b, j, k, isTask, -⟩ := awaits
  rw [isTask]
  exact List.mem_cons_self

namespace Sound

variable (sound : Sound state)
include sound

theorem taken (isTask : state.task p = .sleeps b i j k) (d : Index) (mem : d ∈ [i, j, k]) :
    state.disk.free d = false := by
  apply (sound.owned d).mpr
  refine ⟨p, ?_⟩
  rw [isTask]
  exact mem

theorem same_of_buf (mine : (state.task p).buf = some b) (other : (state.task q).buf = some b) :
    p = q := by
  have first := sound.locked mine
  rw [sound.locked other] at first
  exact (Option.some.inj first).symm

theorem length_le : state.heads.length ≤ num := by
  have := sound.nodup.length_le_card
  rwa [Fintype.card_fin] at this

end Sound

/-! ## The steps -/

/-- Another process holds a sleep-lock, and no process in a call has lost one. -/
theorem Sound.relock (sound : Sound state)
    (keeps : ∀ {p b}, (state.task p).buf = some b → lock b = some p) :
    Sound { state with lock := lock } :=
  { sound with locked := keeps }

section Locks

variable [DecidableEq B]

theorem Sound.acquiresleep (sound : Sound state) (unlocked : state.lock b = none) :
    Sound { state with lock := update state.lock b (some p) } := by
  apply sound.relock
  intro q c mine
  have locked := sound.locked mine
  rw [update_apply]
  split
  · rename_i same
    rw [same, unlocked] at locked
    cases locked
  · exact locked

theorem Sound.releasesleep (sound : Sound state) (isTask : state.task p = .outside)
    (locked : state.lock b = some p) :
    Sound { state with lock := update state.lock b none } := by
  apply sound.relock
  intro q c mine
  have other := sound.locked mine
  rw [update_apply]
  split
  · rename_i same
    rw [same, locked] at other
    cases other
    rw [isTask] at mine
    cases mine
  · exact other

end Locks

section Calls

variable [DecidableEq P]

theorem setTask_task (state : State P B) (p q : P) (task : Task B) :
    (state.setTask p task).task q = if q = p then task else state.task q :=
  update_apply ..

theorem setTask_self (state : State P B) (p : P) (task : Task B) :
    (state.setTask p task).task p = task := update_self ..

theorem setTask_other (state : State P B) (task : Task B) (other : q ≠ p) :
    (state.setTask p task).task q = state.task q := update_of_ne other ..

theorem Sound.locked_setTask (sound : Sound state)
    (locked : ∀ b, task.buf = some b → state.lock b = some p)
    (mine : ((state.setTask p task).task q).buf = some b) : state.lock b = some q := by
  rw [setTask_task] at mine
  split at mine
  · rename_i same
    rw [same]
    exact locked b mine
  · exact sound.locked mine

theorem Sound.setTask (sound : Sound state) (noChain : (state.task p).chain = [])
    (still : task.chain = []) (locked : ∀ b, task.buf = some b → state.lock b = some p) :
    Sound (state.setTask p task) := by
  have chain : ∀ q, ((state.setTask p task).task q).chain = (state.task q).chain := by
    intro q
    rw [setTask_task]
    split
    · rename_i same
      rw [same, noChain, still]
    · rfl
  have sleeps : ∀ q c i j k, (state.setTask p task).task q = .sleeps c i j k ↔
      state.task q = .sleeps c i j k := by
    intro q c i j k
    by_cases same : q = p
    · rw [same, setTask_self]
      constructor
      · rintro rfl
        cases still
      · intro isTask
        rw [isTask] at noChain
        cases noChain
    · rw [setTask_other state task same]
  constructor
  case locked => exact sound.locked_setTask locked
  case linked =>
    intro q c i j k isTask
    exact sound.linked ((sleeps q c i j k).mp isTask)
  case apart =>
    intro q r d mine other
    rw [chain] at mine other
    exact sound.apart mine other
  case owned =>
    intro d
    simp only [chain]
    exact sound.owned d
  case nodup => exact sound.nodup
  case heads =>
    intro h
    refine (sound.heads h).trans (exists_congr fun q => ?_)
    simp only [State.Awaits, sleeps]
    rfl

end Calls

theorem Sound.moves (sound : Sound state) (task : next.task = state.task)
    (busy : next.busy = state.busy) (lock : next.lock = state.lock)
    (free : next.disk.free = state.disk.free)
    (desc : ∀ d, state.disk.free d = false → next.disk.desc d = state.disk.desc d)
    (info : ∀ d, (next.disk.info d).b = (state.disk.info d).b)
    (permuted : next.heads.Perm state.heads) : Sound next where
  locked := by
    rw [task, lock]
    exact sound.locked
  linked := by
    intro q c i j k isTask
    rw [task] at isTask
    exact (sound.linked isTask).congr (fun d mem => desc d (sound.taken isTask d mem)) (info i)
  apart := by
    rw [task]
    exact sound.apart
  owned := by
    rw [free, task]
    exact sound.owned
  nodup := permuted.nodup_iff.mpr sound.nodup
  heads := by
    intro h
    rw [permuted.mem_iff, sound.heads]
    simp only [State.Awaits, task, busy]

theorem Sound.restore (sound : Sound state)
    (restored : Disk.Restored state.disk disk) : Sound { state with disk := disk } := by
  have same := restored.eq
  generalize desc_eq : disk.desc = desc at same
  subst same
  exact sound.moves rfl rfl rfl rfl restored.desc (fun _ => rfl) (.refl _)

/-! ## A new request -/

theorem heads_submit (sound : Sound state) (notHead : i ∉ state.heads) :
    (window (update state.disk.availRing (slotOf num state.disk.availIdx) i) state.fetched
        (gap state.fetched (state.disk.availIdx + 1)) ++ state.pending ++ state.used).Perm
      (i :: state.heads) := by
  have room : gap state.fetched state.disk.availIdx < num := by
    have nodup : (i :: state.heads).Nodup := List.nodup_cons.mpr ⟨notHead, sound.nodup⟩
    have bound := nodup.length_le_card
    rw [Fintype.card_fin, List.length_cons, State.heads, List.length_append, List.length_append,
      State.avail, length_window] at bound
    omega
  rw [window_gap_push num_dvd (by decide) room, List.append_assoc, List.append_assoc, State.heads,
    List.append_assoc]
  exact List.perm_middle

section Submit

variable [DecidableEq P] [DecidableEq B] (sound : Sound state)
  (noChain : (state.task p).chain = []) (locked : state.lock b = some p)
  (free : ∀ d ∈ [i, j, k], state.disk.free d = true) (blockno : Nat) (write : Bool)

/-- The state when a process has submitted a chain. -/
def State.submitted (state : State P B) (p : P) (b : B) (blockno : Nat) (write : Bool)
    (i j k : Index) : State P B :=
  { state.setTask p (.sleeps b i j k) with
    disk := (state.disk.take3 i j k).submit b blockno write i j k
    busy := update state.busy b true }

omit [DecidableEq P] [DecidableEq B] in
include sound free in
theorem not_mem_chain (q : P) (d : Index) (mine : d ∈ [i, j, k]) :
    d ∉ (state.task q).chain := by
  intro theirs
  have taken := (sound.owned d).mpr ⟨q, theirs⟩
  rw [free d mine] at taken
  cases taken

theorem submitted_chain (q : P) :
    ((state.submitted p b blockno write i j k).task q).chain =
      if q = p then [i, j, k] else (state.task q).chain := by
  change ((state.setTask p _).task q).chain = _
  rw [setTask_task]
  split <;> rfl

theorem submitted_other (other : q ≠ p) :
    (state.submitted p b blockno write i j k).task q = state.task q :=
  setTask_other state _ other

theorem submitted_self :
    (state.submitted p b blockno write i j k).task p = .sleeps b i j k :=
  setTask_self state p _

theorem submitted_free (d : Index) : (state.submitted p b blockno write i j k).disk.free d =
    if d ∈ [i, j, k] then false else state.disk.free d := by
  change (state.disk.take3 i j k).free d = _
  simp only [Disk.take3, Disk.setFree_free, List.mem_cons, List.not_mem_nil, or_false]
  grind

include sound noChain locked in
/-- The requests that are not done are the old ones and the new one. -/
theorem submitted_awaits (q : P) :
    (state.submitted p b blockno write i j k).Awaits q h ↔ q = p ∧ h = i ∨ state.Awaits q h := by
  obtain rfl | same := eq_or_ne q p
  · have notBefore : ¬ state.Awaits q h := by
      intro awaits
      have mem := awaits.mem_chain
      rw [noChain] at mem
      cases mem
    constructor
    · rintro ⟨c, j', k', isTask, -⟩
      rw [submitted_self] at isTask
      cases isTask
      exact .inl ⟨rfl, rfl⟩
    · rintro (⟨-, rfl⟩ | awaits)
      · exact ⟨b, j, k, submitted_self blockno write, update_self ..⟩
      · exact absurd awaits notBefore
  simp only [State.Awaits, submitted_other blockno write same, same, false_and, false_or]
  refine exists_congr fun c => exists_congr fun j' => exists_congr fun k' =>
    and_congr_right fun isTask => ?_
  have other : c ≠ b := by
    rintro rfl
    have mine := sound.locked (by rw [isTask]; rfl)
    rw [locked] at mine
    exact same (Option.some.inj mine).symm
  change update state.busy b true c = true ↔ _
  rw [update_of_ne other]

include sound free in
theorem submitted_linked (distinct : i ≠ j ∧ i ≠ k ∧ j ≠ k) {c : B} {i' j' k' : Index}
    (isTask : (state.submitted p b blockno write i j k).task q = .sleeps c i' j' k') :
    (state.submitted p b blockno write i j k).disk.Linked c i' j' k' := by
  by_cases same : q = p
  · rw [same, submitted_self] at isTask
    cases isTask
    exact Disk.submit_linked _ b blockno write distinct
  rw [submitted_other blockno write same] at isTask
  have notMine : ∀ d ∈ [i', j', k'], d ≠ i ∧ d ≠ j ∧ d ≠ k := by
    intro d mem
    have outside : d ∉ [i, j, k] := by
      intro mine
      apply not_mem_chain sound free q d mine
      rw [isTask]
      exact mem
    simpa using outside
  have unchanged := fun d mem =>
    Disk.submit_desc (state.disk.take3 i j k) b blockno write (notMine d mem)
  exact (sound.linked isTask).congr (fun d mem => (unchanged d mem).1)
    (congrArg Info.b (unchanged i' (by simp)).2)

include sound noChain locked free in
/-- `alloc3_desc` has taken three descriptors, and the chain has been submitted. -/
theorem Sound.submits (distinct : i ≠ j ∧ i ≠ k ∧ j ≠ k) :
    Sound (state.submitted p b blockno write i j k) := by
  have notTheirs := not_mem_chain sound free
  have notHead : i ∉ state.heads := by
    intro mem
    obtain ⟨q, awaits⟩ := (sound.heads i).mp mem
    exact notTheirs q i (by simp) awaits.mem_chain
  have permuted : (state.submitted p b blockno write i j k).heads.Perm (i :: state.heads) :=
    heads_submit sound notHead
  constructor
  case locked =>
    refine sound.locked_setTask ?_
    rintro _ ⟨⟩
    exact locked
  case linked => exact submitted_linked sound free blockno write distinct
  case apart =>
    intro q r d mine other
    rw [submitted_chain] at mine other
    split at mine
    · split at other
      · rename_i isP isPToo
        exact isP.trans isPToo.symm
      · exact absurd other (notTheirs r d mine)
    · split at other
      · exact absurd mine (notTheirs q d other)
      · exact sound.apart mine other
  case owned =>
    intro d
    simp only [submitted_free, submitted_chain]
    by_cases mine : d ∈ [i, j, k]
    · rw [if_pos mine]
      exact ⟨fun _ => ⟨p, by rw [if_pos rfl]; exact mine⟩, fun _ => rfl⟩
    rw [if_neg mine, sound.owned]
    refine exists_congr fun q => ?_
    split
    · rename_i isP
      rw [isP, noChain]
      exact ⟨fun mem => (nomatch mem), fun mem => absurd mem mine⟩
    · rfl
  case nodup => exact permuted.nodup_iff.mpr (List.nodup_cons.mpr ⟨notHead, sound.nodup⟩)
  case heads =>
    intro h
    simp only [submitted_awaits sound noChain locked blockno write, exists_or]
    rw [permuted.mem_iff, List.mem_cons, sound.heads, exists_and_right]
    simp

end Submit

/-! ## The device -/

theorem Sound.fetches (sound : Sound state) (more : state.fetched ≠ state.disk.availIdx) :
    Sound { state with
      pending := state.pending ++ [state.disk.availRing (slotOf num state.fetched)]
      fetched := state.fetched + 1 } := by
  refine sound.moves rfl rfl rfl rfl (fun _ _ => rfl) (fun _ => rfl) ?_
  have popped : state.avail = state.disk.availRing (slotOf num state.fetched) ::
      window state.disk.availRing (state.fetched + 1)
        (gap (state.fetched + 1) state.disk.availIdx) := window_gap_pop more
  change (window state.disk.availRing (state.fetched + 1) (gap (state.fetched + 1)
    state.disk.availIdx) ++ (state.pending ++ [state.disk.availRing (slotOf num state.fetched)]) ++
      state.used).Perm (state.avail ++ state.pending ++ state.used)
  rw [popped, ← List.append_assoc, List.cons_append]
  exact (List.perm_append_singleton ..).append_right _

theorem Sound.completes (sound : Sound state) (isPending : h ∈ state.pending) (status : BitVec 8) :
    Sound { state with
      pending := state.pending.erase h
      disk := state.disk.complete h status } := by
  have room : gap state.disk.usedIdx state.disk.usedRingIdx < num := by
    have bound := sound.length_le
    have positive := List.length_pos_of_mem isPending
    rw [State.heads, List.length_append, List.length_append, State.used, length_window] at bound
    omega
  refine sound.moves rfl rfl rfl rfl (fun _ _ => rfl) (state.disk.complete_buf h status) ?_
  change (state.avail ++ state.pending.erase h ++ window (update state.disk.usedRing
    (slotOf num state.disk.usedRingIdx) h) state.disk.usedIdx
      (gap state.disk.usedIdx (state.disk.usedRingIdx + 1))).Perm _
  rw [window_gap_push num_dvd (by decide) room, State.heads, List.append_assoc, List.append_assoc]
  apply List.Perm.append_left
  calc state.pending.erase h ++ (state.used ++ [h])
      _ = state.pending.erase h ++ state.used ++ [h] := (List.append_assoc ..).symm
      _ |>.Perm (h :: (state.pending.erase h ++ state.used)) := List.perm_append_singleton ..
      _ |>.Perm (state.pending ++ state.used) :=
        (List.perm_cons_erase isPending).symm.append_right _

/-! ## The end of a request -/

section

variable (sound : Sound state) (more : state.disk.usedIdx ≠ state.disk.usedRingIdx)
include sound more

/-- The completion that the interrupt handler finds is that of a request that is not
done. -/
theorem Sound.completion :
    ∃ p b j k, state.task p =
        .sleeps b (state.disk.usedRing (slotOf num state.disk.usedIdx)) j k ∧
      state.busy b = true ∧
      (state.disk.info (state.disk.usedRing (slotOf num state.disk.usedIdx))).b = some b := by
  have popped : state.used = _ := window_gap_pop more
  have mem : state.disk.usedRing (slotOf num state.disk.usedIdx) ∈ state.heads := by
    rw [State.heads, popped]
    exact List.mem_append_right _ List.mem_cons_self
  obtain ⟨p, b, j, k, isTask, isBusy⟩ := (sound.heads _).mp mem
  exact ⟨p, b, j, k, isTask, isBusy, (sound.linked isTask).buf⟩

theorem Sound.clears [DecidableEq B]
    (isBuf : (state.disk.info (state.disk.usedRing (slotOf num state.disk.usedIdx))).b = some b) :
    Sound { state with
      busy := update state.busy b false
      disk := { state.disk with usedIdx := state.disk.usedIdx + 1 } } := by
  obtain ⟨p, c, j, k, isTask, -, isC⟩ := sound.completion more
  rw [isBuf] at isC
  cases isC
  obtain ⟨head, isHead⟩ : ∃ head, state.disk.usedRing (slotOf num state.disk.usedIdx) = head :=
    ⟨_, rfl⟩
  have popped : state.used = head :: window state.disk.usedRing (state.disk.usedIdx + 1)
      (gap (state.disk.usedIdx + 1) state.disk.usedRingIdx) := isHead ▸ window_gap_pop more
  rw [isHead] at isTask
  have permuted : state.heads.Perm (head :: (state.avail ++ state.pending ++
      window state.disk.usedRing (state.disk.usedIdx + 1)
        (gap (state.disk.usedIdx + 1) state.disk.usedRingIdx))) := by
    rw [State.heads, popped]
    exact List.perm_middle
  have nodup := List.nodup_cons.mp (permuted.nodup_iff.mp sound.nodup)
  constructor
  case locked => exact sound.locked
  case linked =>
    intro q c i j k isTask
    exact (sound.linked isTask).congr (fun _ _ => rfl) rfl
  case apart => exact sound.apart
  case owned => exact sound.owned
  case nodup => exact nodup.2
  case heads =>
    intro h
    have inHeads : h ∈ state.avail ++ state.pending ++ window state.disk.usedRing
        (state.disk.usedIdx + 1) (gap (state.disk.usedIdx + 1) state.disk.usedRingIdx) ↔
        h ∈ state.heads ∧ h ≠ head := by
      rw [permuted.mem_iff, List.mem_cons]
      constructor
      · intro mem
        refine ⟨.inr mem, ?_⟩
        rintro rfl
        exact nodup.1 mem
      · rintro ⟨isSame | mem, other⟩
        · exact absurd isSame other
        · exact mem
    apply inHeads.trans
    rw [sound.heads, ← exists_and_right]
    refine exists_congr fun q => ?_
    constructor
    · rintro ⟨⟨c, j', k', isTaskQ, isBusy⟩, other⟩
      refine ⟨c, j', k', isTaskQ, ?_⟩
      have ne : c ≠ b := by
        rintro rfl
        have same : q = p := sound.same_of_buf (by rw [isTaskQ]; rfl) (by rw [isTask]; rfl)
        rw [same, isTask] at isTaskQ
        cases isTaskQ
        exact other rfl
      exact (update_of_ne ne ..).trans isBusy
    rintro ⟨c, j', k', isTaskQ, stillBusy⟩
    have ne : c ≠ b := by
      rintro rfl
      change update state.busy c false c = true at stillBusy
      rw [update_self] at stillBusy
      cases stillBusy
    refine ⟨⟨c, j', k', isTaskQ, (update_of_ne ne ..).symm.trans stillBusy⟩, ?_⟩
    rintro rfl
    have same : q = p := sound.apart (by rw [isTaskQ]; exact List.mem_cons_self)
      (by rw [isTask]; exact List.mem_cons_self)
    have isTask' : state.task q = _ := isTaskQ
    rw [same, isTask] at isTask'
    cases isTask'
    exact ne rfl

end

section Finish

variable [DecidableEq P] (sound : Sound state) (isTask : state.task p = .sleeps b i j k)

/-- The disk when a request has ended. -/
def Disk.finished (disk : Disk B) (i j k : Index) : Disk B :=
  (((disk.setInfo i { disk.info i with b := none }).give i).give j).give k

omit [DecidableEq P] in
theorem finished_free (disk : Disk B) (d : Index) :
    (disk.finished i j k).free d = if d ∈ [i, j, k] then true else disk.free d := by
  simp only [Disk.finished, Disk.give, Disk.setFree_free, Disk.setDesc_free, List.mem_cons,
    List.not_mem_nil, or_false]
  change (if d = k then true else if d = j then true else if d = i then true else disk.free d) = _
  grind

omit [DecidableEq P] in
theorem finished_desc (disk : Disk B) {d : Index} (outside : d ∉ [i, j, k]) :
    (disk.finished i j k).desc d = disk.desc d ∧ (disk.finished i j k).info d = disk.info d := by
  simp only [List.mem_cons, List.not_mem_nil, or_false, not_or] at outside
  obtain ⟨notI, notJ, notK⟩ := outside
  constructor
  · simp [Disk.finished, Disk.give, notI, notJ, notK, Disk.setInfo]
  · exact update_of_ne notI ..

omit [DecidableEq P] in
include sound isTask in
/-- The chain of a request is freed, and `free_chain` does not panic. -/
theorem Sound.freeChain :
    (state.disk.setInfo i { state.disk.info i with b := none }).freeChain num i =
      some (state.disk.finished i j k) := by
  have linked := sound.linked isTask
  have taken := sound.taken isTask
  exact Disk.freeChain_chained
    ⟨linked.distinct, linked.first, linked.second, linked.third, linked.status⟩
    ⟨taken i (by simp), taken j (by simp), taken k (by simp)⟩

include sound isTask in
theorem Sound.finishes (done : state.busy b = false) :
    Sound { state.setTask p .outside with disk := state.disk.finished i j k } := by
  have chain : ∀ q, ((state.setTask p .outside).task q).chain =
      if q = p then [] else (state.task q).chain := by
    intro q
    rw [setTask_task]
    split <;> rfl
  have mine : (state.task p).chain = [i, j, k] := by rw [isTask]; rfl
  have notMine : ∀ q d, q ≠ p → d ∈ (state.task q).chain → d ∉ [i, j, k] := by
    intro q d other theirs isMine
    exact other (sound.apart theirs (mine ▸ isMine))
  constructor
  case locked => exact sound.locked_setTask nofun
  case linked =>
    intro q c i' j' k' isTaskQ
    change (state.setTask p .outside).task q = _ at isTaskQ
    rw [setTask_task] at isTaskQ
    split at isTaskQ
    · cases isTaskQ
    rename_i other
    have unchanged : ∀ d ∈ [i', j', k'], _ := fun d mem =>
      finished_desc state.disk (notMine q d other (isTaskQ ▸ mem))
    exact (sound.linked isTaskQ).congr (fun d mem => (unchanged d mem).1)
      (congrArg Info.b (unchanged i' (by simp)).2)
  case apart =>
    intro q r d first second
    change d ∈ ((state.setTask p .outside).task q).chain at first
    change d ∈ ((state.setTask p .outside).task r).chain at second
    rw [chain] at first second
    split at first
    · cases first
    · split at second
      · cases second
      · exact sound.apart first second
  case owned =>
    intro d
    change (state.disk.finished i j k).free d = false ↔
      ∃ q, d ∈ ((state.setTask p .outside).task q).chain
    simp only [finished_free, chain]
    by_cases isMine : d ∈ [i, j, k]
    · rw [if_pos isMine]
      refine ⟨fun impossible => (nomatch impossible), ?_⟩
      rintro ⟨q, mem⟩
      split at mem
      · cases mem
      · rename_i other
        exact absurd isMine (notMine q d other mem)
    rw [if_neg isMine, sound.owned]
    refine exists_congr fun q => ?_
    split
    · rename_i isP
      rw [isP, mine]
      exact ⟨fun mem => absurd mem isMine, fun mem => (nomatch mem)⟩
    · rfl
  case nodup => exact sound.nodup
  case heads =>
    intro h
    refine (sound.heads h).trans (exists_congr fun q => exists_congr fun c => exists_congr fun j' =>
      exists_congr fun k' => ?_)
    change _ ↔ (state.setTask p .outside).task q = _ ∧ _
    rw [setTask_task]
    split
    · rename_i isP
      rw [isP, isTask]
      refine ⟨?_, fun impossible => (nomatch impossible.1)⟩
      rintro ⟨same, isBusy⟩
      cases same
      rw [done] at isBusy
      cases isBusy
    · rfl

end Finish

/-! ## Runs -/

theorem State.Initial.sound (initial : state.Initial) : Sound state := by
  have noChain : ∀ p, (state.task p).chain = [] := by
    intro p
    rw [initial.outside]
    rfl
  have noHeads : state.heads = [] := by
    rw [State.heads, State.avail, State.used, initial.avail.1, initial.avail.2, initial.used.1,
      initial.used.2, initial.pending, gap_self]
    rfl
  constructor
  case locked =>
    intro p b mine
    rw [initial.outside] at mine
    cases mine
  case linked =>
    intro p b i j k isTask
    rw [initial.outside] at isTask
    cases isTask
  case apart =>
    intro p q d mine
    rw [noChain] at mine
    cases mine
  case owned =>
    intro d
    simp [initial.free d, noChain]
  case nodup =>
    rw [noHeads]
    exact List.nodup_nil
  case heads =>
    simp [noHeads, State.Awaits, initial.outside]

section Runs

variable [DecidableEq P] [DecidableEq B]

theorem Sound.tries (sound : Sound state) (noChain : (state.task p).chain = [])
    (locked : state.lock b = some p) (blockno : Nat) (write : Bool) :
    Sound (state.tries p b blockno write) := by
  have result := state.disk.alloc3Desc_cases
  rw [State.tries]
  generalize state.disk.alloc3Desc = allocated at result
  cases result with
  | fails restored =>
    have waiting : Sound (state.setTask p (.waits b blockno write)) := by
      apply sound.setTask noChain rfl
      rintro c ⟨⟩
      exact locked
    exact waiting.restore restored
  | @takes i j k free distinct =>
    refine sound.submits noChain locked ?_ blockno write distinct
    intro d mem
    simp only [List.mem_cons, List.not_mem_nil, or_false] at mem
    rcases mem with rfl | rfl | rfl
    · exact free.1
    · exact free.2.1
    · exact free.2.2

theorem Sound.step (sound : Sound state)
    (ran : Virtio.step state label = some next) : Sound next := by
  cases label with
  | acquiresleep p b =>
    simp only [Virtio.step] at ran
    split at ran
    · rename_i unlocked
      cases ran
      exact sound.acquiresleep unlocked
    · cases ran
  | releasesleep p b =>
    simp only [Virtio.step] at ran
    split at ran
    · rename_i isTask
      split at ran
      · rename_i locked
        cases ran
        exact sound.releasesleep isTask locked
      · cases ran
    · cases ran
  | rw p b blockno write =>
    simp only [Virtio.step] at ran
    split at ran
    · rename_i isTask
      split at ran
      · rename_i locked
        cases ran
        exact sound.tries (by rw [isTask]; rfl) locked blockno write
      · cases ran
    · cases ran
  | retry p =>
    simp only [Virtio.step] at ran
    split at ran
    · rename_i b blockno write isTask
      cases ran
      exact sound.tries (by rw [isTask]; rfl) (sound.locked (by rw [isTask]; rfl)) blockno write
    · cases ran
  | finish p =>
    simp only [Virtio.step] at ran
    split at ran
    · rename_i b i j k isTask
      split at ran
      · cases ran
      · rename_i done
        rw [sound.freeChain isTask] at ran
        cases ran
        exact sound.finishes isTask (Bool.eq_false_iff.mpr done)
    · cases ran
  | intr =>
    simp only [Virtio.step] at ran
    split at ran
    · cases ran
    rename_i running
    have more : state.disk.usedIdx ≠ state.disk.usedRingIdx := fun same => running (.inr same)
    split at ran
    · rename_i b isBuf
      split at ran
      · cases ran
        exact { sound with }
      · cases ran
        exact sound.clears more isBuf
    · cases ran
      exact { sound with }
  | fetch =>
    simp only [Virtio.step] at ran
    split at ran
    · cases ran
    · rename_i more
      cases ran
      exact sound.fetches more
  | complete head status =>
    simp only [Virtio.step] at ran
    split at ran
    · rename_i isPending
      cases ran
      exact sound.completes isPending status
    · cases ran

theorem sound_of_runs (run : (driver P B).Runs start labels state) : Sound state := by
  refine run.invariant ?_ ?_
  · exact fun _ initial => State.Initial.sound initial
  · exact fun sound ran => Sound.step sound ran

/-- The account of the descriptors in a state. -/
structure Accounted (state : State P B) : Prop where
  /-- The requests in flight have three descriptors each. -/
  chains : ∀ {p b i j k}, state.task p = .sleeps b i j k → i ≠ j ∧ i ≠ k ∧ j ≠ k
  /-- A descriptor is free, or it belongs to one request. -/
  partition : ∀ d, (state.disk.free d = true ∧ ∀ p, d ∉ (state.task p).chain) ∨
    (state.disk.free d = false ∧ ∃! p, d ∈ (state.task p).chain)
  /-- `alloc3_desc` does not panic, and leaves the free descriptors alone when it fails. -/
  allocates : ∃ disk idx, state.disk.alloc3Desc = some (disk, idx) ∧
    (idx = none → disk.free = state.disk.free)
  /-- A completion in the used ring is that of one request in flight, and the interrupt
  handler clears `b->disk` of its buffer, unless the device has reported an error. -/
  completes : state.disk.usedIdx ≠ state.disk.usedRingIdx →
    let head := state.disk.usedRing (slotOf num state.disk.usedIdx)
    ∃ p b j k, state.task p = .sleeps b head j k ∧ state.busy b = true ∧
      ((state.disk.info head).status = 0 → state.stuck = false →
        ∃ next, step state .intr = some next ∧ next.stuck = false ∧
          next.busy = update state.busy b false)
  /-- A request that is done frees its three descriptors, without a panic. -/
  frees : ∀ {p b i j k}, state.task p = .sleeps b i j k → state.busy b = false →
    ∃ next, step state (.finish p) = some next ∧ next.task p = .outside ∧
      ∀ d, next.disk.free d = if d ∈ [i, j, k] then true else state.disk.free d

/-- In every run of any number of processes, with any interleaving of their requests, of
the device and of its interrupts, the account of the descriptors holds. -/
theorem descriptors_accounted {start : State P B} {labels : List (Label P B)}
    (run : (driver P B).Runs start labels state) : Accounted state := by
  have sound := sound_of_runs run
  constructor
  case chains => exact fun isTask => (sound.linked isTask).distinct
  case partition =>
    intro d
    cases isFree : state.disk.free d with
    | true =>
      refine .inl ⟨rfl, fun p member => ?_⟩
      have taken := (sound.owned d).mpr ⟨p, member⟩
      rw [isFree] at taken
      cases taken
    | false =>
      obtain ⟨p, member⟩ := (sound.owned d).mp isFree
      exact .inr ⟨rfl, p, member, fun q other => sound.apart other member⟩
  case allocates =>
    have result := state.disk.alloc3Desc_cases
    generalize state.disk.alloc3Desc = allocated at result
    cases result with
    | fails restored => exact ⟨_, _, rfl, fun _ => restored.free⟩
    | takes => exact ⟨_, _, rfl, fun none => (nomatch none)⟩
  case completes =>
    intro more
    obtain ⟨p, b, j, k, isTask, isBusy, isBuf⟩ := sound.completion more
    refine ⟨p, b, j, k, isTask, isBusy, fun noError running => ?_⟩
    simp [step, running, more, isBuf, noError]
  case frees =>
    intro p b i j k isTask done
    refine ⟨{ state.setTask p .outside with disk := state.disk.finished i j k }, ?_,
      setTask_self state p .outside, finished_free state.disk⟩
    simp [step, isTask, done, sound.freeChain isTask]

end Runs

/-! ## A request -/

/-- The state after `virtio_disk_init`, with two processes and two buffers. -/
def idle : State Bool Bool where
  disk :=
    { desc := fun _ => .zero
      availRing := fun _ => 0
      availIdx := 0
      usedRing := fun _ => 0
      usedRingIdx := 0
      free := fun _ => true
      usedIdx := 0
      info := fun _ => ⟨none, 0⟩
      ops := fun _ => ⟨false, 0, 0⟩ }
  busy := fun _ => false
  lock := fun _ => none
  task := fun _ => .outside
  fetched := 0
  pending := []
  stuck := false

/-- Two requests, of which the second is completed first. -/
def requests : List (Label Bool Bool) :=
  [.acquiresleep false false, .acquiresleep true true, .rw false false 5 false,
    .rw true true 6 true, .fetch, .fetch, .complete 3 0, .intr, .finish true]

theorem descriptors_accounted_requests :
    ∃ state, (driver Bool Bool).Runs idle requests state ∧ state.busy false = true ∧
      Accounted state := by
  have initial : idle.Initial := ⟨fun _ => rfl, fun _ => rfl, ⟨rfl, rfl⟩, ⟨rfl, rfl⟩, rfl, rfl⟩
  obtain ⟨state, run, isBusy⟩ : ∃ state, (driver Bool Bool).Runs idle requests state ∧
      state.busy false = true := TransitionSystem.exists_runs initial (by decide +kernel)
  exact ⟨state, run, isBusy, descriptors_accounted run⟩

/-- No request is lost or repeated: its head is once in the available ring, with the device or
in the used ring until it is done. At most two requests are in flight. -/
theorem requests_conserved [DecidableEq P] [DecidableEq B] {start state : State P B}
    {labels : List (Label P B)} (run : (driver P B).Runs start labels state) :
    (∀ h, state.heads.count h = 1 ↔ ∃ p, state.Awaits p h) ∧
    ∀ p q r, (state.task p).chain ≠ [] → (state.task q).chain ≠ [] → (state.task r).chain ≠ [] →
      p = q ∨ p = r ∨ q = r := by
  have sound := sound_of_runs run
  have three : ∀ p, (state.task p).chain ≠ [] →
      (state.task p).chain.Nodup ∧ (state.task p).chain.length = 3 := by
    intro p busy
    cases isTask : state.task p with
    | sleeps b i j k => simp [Task.chain, (sound.linked isTask).distinct]
    | _ => exact absurd (congrArg Task.chain isTask) busy
  have apart : ∀ {p q}, p ≠ q → (state.task p).chain.Disjoint (state.task q).chain :=
    fun ne _ mine other => ne (sound.apart mine other)
  refine ⟨fun h => ?_, fun p q r first second third => ?_⟩
  · rw [sound.nodup.count, ← sound.heads]
    simp
  · by_contra none
    obtain ⟨pq, pr, qr⟩ := by simpa only [not_or] using none
    have fits := (((three p first).1.append (three q second).1 (apart pq)).append (three r third).1
      (List.disjoint_append_left.mpr ⟨apart pr, apart qr⟩)).length_le_card
    simp only [List.length_append, three, first, second, third, ne_eq, not_false_eq_true] at fits
    exact absurd fits (by decide)

theorem requests_conserved_two :
    ∃ state, (driver Bool Bool).Runs idle (requests.take 4) state ∧
      (∃ p, state.Awaits p 3) ∧ state.heads.count 3 = 1 := by
  have initial : idle.Initial := ⟨fun _ => rfl, fun _ => rfl, ⟨rfl, rfl⟩, ⟨rfl, rfl⟩, rfl, rfl⟩
  obtain ⟨state, run, counted⟩ : ∃ state, (driver Bool Bool).Runs idle (requests.take 4) state ∧
      state.heads.count 3 = 1 := TransitionSystem.exists_runs initial (by decide +kernel)
  exact ⟨state, run, ((requests_conserved run).1 3).mp counted, counted⟩

end Xv6.Virtio
