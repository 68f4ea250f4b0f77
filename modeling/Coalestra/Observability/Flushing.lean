import Coalestra.Observability.DropOldest

/-! # Flushing the buffered sink

`_BufferedDispatcher.flush` waits until no record is pending, and so does the first part of a
`close` that drains. Both then stand for more than a counter: every record accepted so far has come
to its end, and a `close` that has drained loses nothing more. -/

namespace Coalestra
set_option autoImplicit false
set_option maxHeartbeats 250000

namespace Dispatcher
variable {T : Type} {s t u : Dispatcher T}

/-- The loop of `flush` ends: the condition is free and nothing is pending. -/
def Flushed (s : Dispatcher T) : Prop := s.conditionFree = true ∧ s.pending = 0

/-- Every record accepted so far has been delivered, has failed, or was dropped for a newer one. -/
def Settled (s : Dispatcher T) : Prop :=
  ∀ p : T → Bool, s.accepted.countP p = s.deliveredRecords.countP p + s.failedRecords.countP p +
    s.evicted.countP p

theorem Flushed.places (h : s.Flushed) (hl : Ledger s) :
    s.worker.current = [] ∧ s.worker.due = 0 ∧ s.inHand = [] ∧ recordsOf s.queue = [] := by
  have hpending := hl.pending_eq
  rw [h.2, (hands_free h.1).2] at hpending
  refine ⟨List.length_eq_zero_iff.mp ?_, ?_, List.length_eq_zero_iff.mp ?_,
    List.length_eq_zero_iff.mp ?_⟩ <;> omega

theorem Flushed.settled (h : s.Flushed) (hl : Ledger s) : s.Settled := by
  obtain ⟨hcurrent, -, hhand, hqueue⟩ := h.places hl
  intro p
  have hall := hl.accounted p
  rw [hcurrent, hhand, hqueue] at hall
  simpa using hall

/-! ## Records are never taken back -/

/-- What has been accepted stays accepted. -/
def Extends (s t : Dispatcher T) : Prop := s.accepted <+: t.accepted

theorem extends_submit (h : s.submitStep = some t) : Extends s t := by
  unfold submitStep at h
  cases hphase : s.submitting with
  | none => rw [hphase] at h; cases h
  | some phase =>
    rw [hphase] at h
    cases phase with
    | putting r =>
      dsimp only at h
      split at h
      · rename_i s' hput
        rw [putNowait_eq hput] at h
        cases h
        exact List.prefix_append _ _
      · split at h <;> cases h <;> exact List.prefix_refl _
    | evicting r =>
      dsimp only at h
      split at h <;> cases h <;> exact List.prefix_refl _
    | putBack r =>
      dsimp only at h
      split at h
      · rename_i s' hput
        rw [putNowait_eq hput] at h
        cases h
        exact List.prefix_refl _
      · cases h
        exact List.prefix_refl _
    | evicted oldest r =>
      obtain ⟨s', hdone, rfl⟩ := Option.map_eq_some_iff.mp h
      rw [(taskDone_eq hdone).1]
      exact List.prefix_refl _
    | putAgain r =>
      dsimp only at h
      split at h
      · rename_i s' hput
        rw [putNowait_eq hput] at h
        cases h
        exact List.prefix_append _ _
      · cases h
        exact List.prefix_refl _
    | counting =>
      cases h
      exact List.prefix_refl _

theorem extends_step {e : BufferEvent T} (h : s.step e = some t) : Extends s t := by
  by_cases hsubmit : e = .submit
  · subst hsubmit
    exact extends_submit h
  · by_cases henter : ∃ r, e = .enter r
    · obtain ⟨r, rfl⟩ := henter
      simp only [step] at h
      split at h
      · split at h <;> cases h <;> exact List.prefix_refl _
      · cases h
    · have haside := step_aside hsubmit (fun r he => henter ⟨r, he⟩) h
      have hsame : s.accepted ++ [] = t.accepted := by rw [List.append_nil, haside.accepted]
      exact ⟨[], hsame⟩

theorem extends_run {es : List (BufferEvent T)} (h : Run step s es t) : Extends s t := by
  induction h with
  | nil s => exact List.prefix_refl _
  | cons _ hs _ ih => exact (extends_step hs).trans ih

/-! ## After a `close` that has drained -/

/-- `close` stands behind its `flush`, or is about to leave it. -/
def ClosePhase.behind : Option (ClosePhase T) → ℕ → Prop
  | some .flushing, pending => pending = 0
  | some .announcing, _ | some .placing, _ | some .displacing, _ | some .joining, _
  | some (.returned _), _ => True
  | _, _ => False

/-- Nobody submits any more, and no record is left in the queue or in a hand. -/
structure Drained (s : Dispatcher T) : Prop where
  closed : s.closed = true
  quiet : s.submitting = none
  behind : ClosePhase.behind s.first s.pending
  empty : recordsOf s.queue = []
  worker : s.worker.current = [] ∧ s.worker.due = 0

/-- What became of the records is the same. -/
structure SameRecords (s t : Dispatcher T) : Prop where
  accepted : t.accepted = s.accepted
  delivered : t.deliveredRecords = s.deliveredRecords
  failed : t.failedRecords = s.failedRecords
  evicted : t.evicted = s.evicted
  dropped : t.dropped = s.dropped

theorem SameRecords.refl (s : Dispatcher T) : SameRecords s s := ⟨rfl, rfl, rfl, rfl, rfl⟩

theorem SameRecords.trans (h : SameRecords s t) (h' : SameRecords t u) : SameRecords s u :=
  ⟨h'.accepted.trans h.accepted, h'.delivered.trans h.delivered, h'.failed.trans h.failed,
    h'.evicted.trans h.evicted, h'.dropped.trans h.dropped⟩

theorem Flushed.drained (h : s.Flushed) (hl : Ledger s) (hc : Closing s)
    (hfirst : s.first = some .flushing) : s.Drained := by
  obtain ⟨hcurrent, hdue, -, hqueue⟩ := h.places hl
  have hclosed : s.closed = true := by rw [hc.closed_iff, hfirst]; rfl
  exact ⟨hclosed, hc.quiet hclosed, by rw [hfirst]; exact h.2, hqueue, hcurrent, hdue⟩

/-- A queue without records has only the sentinel to give. -/
theorem record_not_mem {r : T} {queue rest : List (QueueItem T)} (h : recordsOf queue = [])
    (hqueue : queue = .record r :: rest) : False := by
  rw [hqueue] at h
  cases h

theorem Drained.closer {timedOut : Bool} (h : s.Drained) (hs : s.closerStep timedOut = some t) :
    t.Drained ∧ SameRecords s t := by
  obtain ⟨hclosed, hquiet, hbehind, hempty, hworker⟩ := h
  unfold closerStep at hs
  cases hfirst : s.first with
  | none => rw [hfirst] at hs; cases hs
  | some phase =>
    rw [hfirst] at hs hbehind
    cases phase with
    | flushing =>
      dsimp only at hs
      rw [if_pos (show s.pending = 0 from hbehind)] at hs
      split at hs
      · cases hs
        exact ⟨⟨hclosed, hquiet, trivial, hempty, hworker⟩, rfl, rfl, rfl, rfl, rfl⟩
      · cases hs
    | discarding => exact hbehind.elim
    | discarded r => exact hbehind.elim
    | announcing =>
      dsimp only at hs
      split at hs
      · split at hs <;> cases hs <;>
          exact ⟨⟨hclosed, hquiet, trivial, hempty, hworker⟩, rfl, rfl, rfl, rfl, rfl⟩
      · cases hs
    | placing =>
      dsimp only at hs
      split at hs
      · rename_i s' hput
        rw [putNowait_eq hput] at hs
        cases hs
        refine ⟨⟨hclosed, hquiet, trivial, ?_, hworker⟩, rfl, rfl, rfl, rfl, rfl⟩
        simp [hempty]
      · cases hs
        exact ⟨⟨hclosed, hquiet, trivial, hempty, hworker⟩, rfl, rfl, rfl, rfl, rfl⟩
    | displacing =>
      dsimp only at hs
      split at hs
      · cases hs
        exact ⟨⟨hclosed, hquiet, trivial, hempty, hworker⟩, rfl, rfl, rfl, rfl, rfl⟩
      · rename_i rest hqueue
        rw [hqueue, recordsOf_sentinel] at hempty
        cases hs
        refine ⟨⟨hclosed, hquiet, trivial, ?_, hworker⟩, rfl, rfl, rfl, rfl, rfl⟩
        simp [hempty]
      · rename_i hqueue
        exact (record_not_mem hempty hqueue).elim
    | displaced r => exact hbehind.elim
    | joining =>
      obtain ⟨r, hjoined, rfl⟩ := Option.map_eq_some_iff.mp hs
      rcases joined_cases hjoined with ⟨rfl, -⟩ | ⟨rfl, -⟩ <;>
        exact ⟨⟨hclosed, hquiet, trivial, hempty, hworker⟩, rfl, rfl, rfl, rfl, rfl⟩
    | returned stopped => cases hs

theorem Drained.later {i : ℕ} {timedOut : Bool} (h : s.Drained)
    (hs : s.laterStep i timedOut = some t) : t.Drained ∧ SameRecords s t := by
  obtain ⟨hclosed, hquiet, hbehind, hempty, hworker⟩ := h
  unfold laterStep at hs
  split at hs
  · split at hs
    · cases hs
      exact ⟨⟨hclosed, hquiet, hbehind, hempty, hworker⟩, rfl, rfl, rfl, rfl, rfl⟩
    · cases hs
  · obtain ⟨r, hjoined, rfl⟩ := Option.map_eq_some_iff.mp hs
    rcases joined_cases hjoined with ⟨rfl, -⟩ | ⟨rfl, -⟩ <;>
      exact ⟨⟨hclosed, hquiet, hbehind, hempty, hworker⟩, rfl, rfl, rfl, rfl, rfl⟩
  · cases hs

/-- The worker finds nothing but the sentinel. -/
theorem Drained.work (h : s.Drained) (hs : s.take = some t ∨ s.workerDone = some t) :
    t.Drained ∧ SameRecords s t := by
  obtain ⟨hclosed, hquiet, hbehind, hempty, hcurrent, hdue⟩ := h
  rcases hs with hs | hs
  · unfold take at hs
    split at hs
    · rename_i hqueue
      exact (record_not_mem hempty hqueue).elim
    · rename_i rest hworker hqueue
      rw [hqueue, recordsOf_sentinel] at hempty
      cases hs
      exact ⟨⟨hclosed, hquiet, hbehind, hempty, rfl, rfl⟩, rfl, rfl, rfl, rfl, rfl⟩
    · cases hs
  · unfold workerDone at hs
    cases hworker : s.worker with
    | counted => rw [hworker] at hdue; cases hdue
    | stopping =>
      rw [hworker] at hs
      obtain ⟨s', hdone, rfl⟩ := Option.map_eq_some_iff.mp hs
      rw [(taskDone_eq hdone).1]
      exact ⟨⟨hclosed, hquiet, hbehind, hempty, rfl, rfl⟩, rfl, rfl, rfl, rfl, rfl⟩
    | idle | handling | settling | stopped => rw [hworker] at hs; cases hs

theorem Drained.step {e : BufferEvent T} (h : s.Drained) (hs : s.step e = some t) :
    t.Drained ∧ SameRecords s t := by
  cases e with
  | enter r =>
    simp only [Dispatcher.step, h.closed, if_true] at hs
    split at hs
    · cases hs
      exact ⟨h, .refl s⟩
    · cases hs
  | submit =>
    simp only [Dispatcher.step, submitStep, h.quiet] at hs
    cases hs
  | take => exact h.work (.inl hs)
  | handlerEnds raised =>
    simp only [Dispatcher.step, handlerEnds] at hs
    split at hs
    · rename_i r hworker
      have hcurrent := h.worker.1
      rw [hworker] at hcurrent
      cases hcurrent
    · cases hs
  | taskDone => exact h.work (.inr hs)
  | settle =>
    simp only [Dispatcher.step, settle] at hs
    split at hs
    · rename_i hworker
      have hdue := h.worker.2
      rw [hworker] at hdue
      cases hdue
    · cases hs
  | flush =>
    simp only [Dispatcher.step] at hs
    split at hs
    · cases hs
      exact ⟨h, .refl s⟩
    · cases hs
  | close drain =>
    simp only [Dispatcher.step, close] at hs
    rw [if_pos h.closed] at hs
    split at hs
    · cases hs
      exact ⟨⟨h.closed, h.quiet, h.behind, h.empty, h.worker⟩, rfl, rfl, rfl, rfl, rfl⟩
    · cases hs
  | closer timedOut => exact h.closer hs
  | laterCloser i timedOut => exact h.later hs

theorem Drained.run {es : List (BufferEvent T)} (h : s.Drained)
    (hrun : Run Dispatcher.step s es t) : SameRecords s t := by
  induction hrun with
  | nil s => exact .refl s
  | cons _ hs _ ih =>
    obtain ⟨hnext, hsame⟩ := h.step hs
    exact hsame.trans (ih hnext)

/-- One record is delivered, and a `close` that drains is called. -/
def drainsOne : List (BufferEvent ℕ) :=
  [.enter 7, .submit, .submit, .take, .handlerEnds false, .taskDone, .settle, .close true]

end Dispatcher
end Coalestra
