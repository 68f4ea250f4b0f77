import Coalestra.Observability.Buffered

/-! # Dropping the oldest record

With `DROP_OLDEST` a submission that finds the queue full takes the oldest record out and puts its
own. The worker needs no condition to take from the queue, so it may come between the two: the
submission then finds the queue empty, or no longer full. In a run where it does not, every
submission puts its record, and what is dropped is the oldest record of a full queue. -/

namespace Coalestra
set_option autoImplicit false
set_option maxHeartbeats 250000

namespace Dispatcher
variable {T : Type} {s t : Dispatcher T} {e : BufferEvent T}

/-- How `submit` ends. -/
inductive SubmitOutcome
  | returned (enqueued : Bool)
  | raisedFull
  deriving DecidableEq, Repr

/-- How `submit` ends with its next step, if that is its last one. -/
def submitOutcome (s : Dispatcher T) : Option SubmitOutcome :=
  match s.submitting with
  | some (.putting r) =>
    match s.putNowait (.record r), s.overflow with
    | some _, _ => none
    | none, .dropNewest => some (.returned false)
    | none, .raise => some .raisedFull
    | none, .dropOldest => none
  | some (.evicting _) => if s.queue.isEmpty then some (.returned false) else none
  | some (.putBack _) =>
    if (s.putNowait .sentinel).isSome then some (.returned false) else some .raisedFull
  | some (.putAgain r) => if (s.putNowait (.record r)).isSome then none else some .raisedFull
  | some .counting => some (.returned true)
  | _ => none

/-- The worker takes nothing while a submission that has found the queue full is about to take the
oldest record. -/
def TakesOutside (s : Dispatcher T) (e : BufferEvent T) : Prop :=
  e = .take → ∀ r, s.submitting ≠ some (.evicting r)

/-- What `DROP_OLDEST` is for. The submission that is inside can go on, and returns true; what is
taken out to be dropped is the oldest record of a full queue; nothing else is dropped. -/
structure KeepsNewest (s : Dispatcher T) : Prop where
  returns : ∀ o, s.submitOutcome = some o → o = .returned true
  proceeds : s.submitting ≠ none → ∃ t, s.step .submit = some t
  oldest : ∀ e t, s.closed = false → s.step e = some t →
    t.inHand = s.inHand ∨ t.inHand = [] ∨
      ∃ r, t.inHand = [r] ∧ s.inHand = [] ∧ s.queue = .record r :: t.queue ∧
        s.queue.length = s.maxPending
  dropped : ∀ e t, s.closed = false → s.step e = some t →
    (t.evicted = s.evicted ∧ t.dropped = s.dropped) ∨
      ∃ r, s.inHand = [r] ∧ t.inHand = [] ∧ t.evicted = s.evicted ++ [r] ∧
        t.dropped = s.dropped + 1

/-! ## What the other threads leave alone -/

/-- A step of another thread than the one that submits. -/
structure Aside (s t : Dispatcher T) : Prop where
  submitting : t.submitting = s.submitting
  accepted : t.accepted = s.accepted
  enqueued : t.enqueued = s.enqueued
  overflow : t.overflow = s.overflow
  maxPending : t.maxPending = s.maxPending
  bounded : s.queue.length ≤ s.maxPending → t.queue.length ≤ s.maxPending

theorem Aside.of_queue (hsubmitting : t.submitting = s.submitting)
    (haccepted : t.accepted = s.accepted) (henqueued : t.enqueued = s.enqueued)
    (hoverflow : t.overflow = s.overflow) (hmax : t.maxPending = s.maxPending)
    (hqueue : t.queue.length ≤ s.queue.length) : Aside s t :=
  ⟨hsubmitting, haccepted, henqueued, hoverflow, hmax, fun h => Nat.le_trans hqueue h⟩

theorem take_shorter (h : s.take = some t) : t.queue.length ≤ s.queue.length := by
  unfold take at h
  split at h
  · rename_i hqueue
    cases h
    simp [hqueue]
  · rename_i hqueue
    cases h
    simp [hqueue]
  · cases h

theorem aside_closer {timedOut : Bool} (h : s.closerStep timedOut = some t) : Aside s t := by
  unfold closerStep at h
  cases hfirst : s.first with
  | none => rw [hfirst] at h; cases h
  | some phase =>
    rw [hfirst] at h
    cases phase with
    | flushing =>
      dsimp only at h
      split at h
      · split at h
        · cases h
          exact .of_queue rfl rfl rfl rfl rfl (Nat.le_refl _)
        · split at h
          · cases h
            exact .of_queue rfl rfl rfl rfl rfl (Nat.le_refl _)
          · cases h
      · cases h
    | discarding =>
      dsimp only at h
      split at h
      · cases h
        exact .of_queue rfl rfl rfl rfl rfl (Nat.le_refl _)
      · rename_i hqueue
        cases h
        exact .of_queue rfl rfl rfl rfl rfl (by simp [hqueue])
      · rename_i hqueue
        cases h
        exact .of_queue rfl rfl rfl rfl rfl (by simp [hqueue])
    | announcing =>
      dsimp only at h
      split at h
      · split at h
        · cases h
          exact .of_queue rfl rfl rfl rfl rfl (Nat.le_refl _)
        · cases h
          exact .of_queue rfl rfl rfl rfl rfl (Nat.le_refl _)
      · cases h
    | placing =>
      dsimp only at h
      split at h
      · rename_i s' hput
        cases h
        have hroom : s.queue.length < s.maxPending := by
          by_contra hfull
          rw [putNowait, if_neg hfull] at hput
          cases hput
        rw [putNowait_eq hput]
        refine ⟨rfl, rfl, rfl, rfl, rfl, fun _ => ?_⟩
        simp only [List.length_append, List.length_cons, List.length_nil]
        omega
      · cases h
        exact .of_queue rfl rfl rfl rfl rfl (Nat.le_refl _)
    | displacing =>
      dsimp only at h
      split at h
      · cases h
        exact .of_queue rfl rfl rfl rfl rfl (Nat.le_refl _)
      · rename_i hqueue
        cases h
        exact .of_queue rfl rfl rfl rfl rfl (by simp [hqueue])
      · rename_i hqueue
        cases h
        exact .of_queue rfl rfl rfl rfl rfl (by simp [hqueue])
    | joining =>
      obtain ⟨r, hjoined, rfl⟩ := Option.map_eq_some_iff.mp h
      rcases joined_cases hjoined with ⟨rfl, -⟩ | ⟨rfl, -⟩
      · exact .of_queue rfl rfl rfl rfl rfl (Nat.le_refl _)
      · exact .of_queue rfl rfl rfl rfl rfl (Nat.le_refl _)
    | returned stopped => cases h
    | _ =>
      dsimp only at h
      split at h
      · obtain ⟨u, hu, rfl⟩ := Option.map_eq_some_iff.mp h
        rw [(taskDone_eq hu).1]
        exact .of_queue rfl rfl rfl rfl rfl (Nat.le_refl _)
      · cases h

theorem aside_later {i : ℕ} {timedOut : Bool} (h : s.laterStep i timedOut = some t) :
    Aside s t := by
  unfold laterStep at h
  split at h
  · split at h
    · cases h
      exact .of_queue rfl rfl rfl rfl rfl (Nat.le_refl _)
    · cases h
  · obtain ⟨r, hjoined, rfl⟩ := Option.map_eq_some_iff.mp h
    rcases joined_cases hjoined with ⟨rfl, -⟩ | ⟨rfl, -⟩
    · exact .of_queue rfl rfl rfl rfl rfl (Nat.le_refl _)
    · exact .of_queue rfl rfl rfl rfl rfl (Nat.le_refl _)
  · cases h

/-- A step of the worker, or of a thread that flushes or closes. -/
theorem step_aside (hsubmit : e ≠ .submit) (henter : ∀ r, e ≠ .enter r) (h : s.step e = some t) :
    Aside s t := by
  cases e with
  | enter r => exact absurd rfl (henter r)
  | submit => exact absurd rfl hsubmit
  | take =>
    have hshorter := take_shorter h
    simp only [step, take] at h
    split at h
    · cases h
      exact .of_queue rfl rfl rfl rfl rfl hshorter
    · cases h
      exact .of_queue rfl rfl rfl rfl rfl hshorter
    · cases h
  | handlerEnds raised =>
    simp only [step, handlerEnds] at h
    split at h
    · split at h
      · cases raised <;> cases h <;> exact .of_queue rfl rfl rfl rfl rfl (Nat.le_refl _)
      · cases h
    · cases h
  | taskDone =>
    simp only [step, workerDone] at h
    split at h
    · obtain ⟨u, hu, rfl⟩ := Option.map_eq_some_iff.mp h
      rw [(taskDone_eq hu).1]
      exact .of_queue rfl rfl rfl rfl rfl (Nat.le_refl _)
    · obtain ⟨u, hu, rfl⟩ := Option.map_eq_some_iff.mp h
      rw [(taskDone_eq hu).1]
      exact .of_queue rfl rfl rfl rfl rfl (Nat.le_refl _)
    · cases h
  | settle =>
    simp only [step, settle] at h
    split at h
    · split at h
      · cases h
        exact .of_queue rfl rfl rfl rfl rfl (Nat.le_refl _)
      · cases h
    · cases h
  | flush =>
    simp only [step] at h
    split at h
    · cases h
      exact .of_queue rfl rfl rfl rfl rfl (Nat.le_refl _)
    · cases h
  | close drain =>
    simp only [step, close] at h
    split at h
    · split at h <;> cases h <;> exact .of_queue rfl rfl rfl rfl rfl (Nat.le_refl _)
    · cases h
  | closer timedOut => exact aside_closer h
  | laterCloser i timedOut => exact aside_later h

/-- On an open buffer nobody but the submission drops a record, and nobody but the submission and
the worker takes one out of the queue. -/
theorem step_open (hfirst : s.first = none) (hsubmit : e ≠ .submit) (h : s.step e = some t) :
    t.inHand = s.inHand ∧ t.evicted = s.evicted ∧ t.dropped = s.dropped ∧
      (e ≠ .take → t.queue = s.queue) := by
  have hhand : ∀ u : Dispatcher T, ClosePhase.hand u.first = [] →
      u.submitting = s.submitting → u.inHand = s.inHand := by
    intro u hu hsame
    rw [inHand, inHand, hu, hsame, hfirst]
    rfl
  have hnone : ClosePhase.hand s.first = [] := by rw [hfirst]; rfl
  cases e with
  | enter r =>
    simp only [step] at h
    split at h
    · rename_i hfree
      split at h
      · cases h
        simp
      · cases h
        refine ⟨?_, rfl, rfl, fun _ => rfl⟩
        simp only [inHand, hnone, (hands_free hfree).1]
        rfl
    · cases h
  | submit => exact absurd rfl hsubmit
  | take =>
    simp only [step, take] at h
    split at h
    · cases h
      exact ⟨hhand _ hnone rfl, rfl, rfl, fun h => absurd rfl h⟩
    · cases h
      exact ⟨hhand _ hnone rfl, rfl, rfl, fun h => absurd rfl h⟩
    · cases h
  | handlerEnds raised =>
    simp only [step, handlerEnds] at h
    split at h
    · split at h
      · cases raised <;> cases h <;> exact ⟨hhand _ hnone rfl, rfl, rfl, fun _ => rfl⟩
      · cases h
    · cases h
  | taskDone =>
    simp only [step, workerDone] at h
    split at h
    · obtain ⟨u, hu, rfl⟩ := Option.map_eq_some_iff.mp h
      rw [(taskDone_eq hu).1]
      exact ⟨hhand _ hnone rfl, rfl, rfl, fun _ => rfl⟩
    · obtain ⟨u, hu, rfl⟩ := Option.map_eq_some_iff.mp h
      rw [(taskDone_eq hu).1]
      exact ⟨hhand _ hnone rfl, rfl, rfl, fun _ => rfl⟩
    · cases h
  | settle =>
    simp only [step, settle] at h
    split at h
    · split at h
      · cases h
        exact ⟨hhand _ hnone rfl, rfl, rfl, fun _ => rfl⟩
      · cases h
    · cases h
  | flush =>
    simp only [step] at h
    split at h
    · cases h
      exact ⟨rfl, rfl, rfl, fun _ => rfl⟩
    · cases h
  | close drain =>
    simp only [step, close] at h
    split at h
    · split at h
      · cases h
        exact ⟨hhand _ hnone rfl, rfl, rfl, fun _ => rfl⟩
      · cases h
        exact ⟨hhand _ (by cases drain <;> rfl) rfl, rfl, rfl, fun _ => rfl⟩
    · cases h
  | closer timedOut => simp [step, closerStep, hfirst] at h
  | laterCloser i timedOut =>
    simp only [step, laterStep] at h
    split at h
    · split at h
      · cases h
        exact ⟨hhand _ hnone rfl, rfl, rfl, fun _ => rfl⟩
      · cases h
    · obtain ⟨r, hjoined, rfl⟩ := Option.map_eq_some_iff.mp h
      rcases joined_cases hjoined with ⟨rfl, -⟩ | ⟨rfl, -⟩ <;>
        exact ⟨hhand _ hnone rfl, rfl, rfl, fun _ => rfl⟩
    · cases h

/-! ## The submission -/

/-- Between finding the queue full and putting its own record, a submission knows how much of the
queue is used. -/
structure Room (s : Dispatcher T) : Prop where
  overflow : s.overflow = .dropOldest
  positive : 1 ≤ s.maxPending
  bounded : s.queue.length ≤ s.maxPending
  full : ∀ r, s.submitting = some (.evicting r) → s.queue.length = s.maxPending
  evicted : ∀ oldest r, s.submitting = some (.evicted oldest r) → s.queue.length < s.maxPending
  again : ∀ r, s.submitting = some (.putAgain r) → s.queue.length < s.maxPending

theorem putNowait_room {item : QueueItem T} (h : s.queue.length < s.maxPending) :
    s.putNowait item = some { s with
      queue := s.queue ++ [item]
      unfinishedTasks := s.unfinishedTasks + 1 } := if_pos h

/-- What a submission does with its next step when the queue is as it left it. -/
theorem submit_cases (hl : Ledger s) (hc : Closing s) (hroom : Room s) {phase : SubmitPhase T}
    (hphase : s.submitting = some phase) : ∃ t, s.submitStep = some t ∧
      match phase with
      | .putting r =>
        s.queue.length < s.maxPending ∧ t = { s with
          queue := s.queue ++ [.record r]
          unfinishedTasks := s.unfinishedTasks + 1
          submitting := some .counting
          accepted := s.accepted ++ [r] } ∨
        s.queue.length = s.maxPending ∧ t = { s with submitting := some (.evicting r) }
      | .evicting r => ∃ oldest rest, s.queue = .record oldest :: rest ∧
          t = { s with queue := rest, submitting := some (.evicted oldest r) }
      | .evicted oldest r => t = { s with
          unfinishedTasks := s.unfinishedTasks - 1
          dropped := s.dropped + 1
          pending := s.pending - 1
          evicted := s.evicted ++ [oldest]
          submitting := some (.putAgain r) }
      | .putBack _ => False
      | .putAgain r => t = { s with
          queue := s.queue ++ [.record r]
          unfinishedTasks := s.unfinishedTasks + 1
          submitting := some .counting
          accepted := s.accepted ++ [r] }
      | .counting => t = { s with
          enqueued := s.enqueued + 1
          pending := s.pending + 1
          peakPending := max s.peakPending (s.pending + 1)
          submitting := none } := by
  obtain ⟨-, hnot⟩ := hc.submitting hphase
  cases phase with
  | putting r =>
    by_cases hlt : s.queue.length < s.maxPending
    · exact ⟨_, by simp only [submitStep, hphase, putNowait_room hlt]; rfl, .inl ⟨hlt, rfl⟩⟩
    · have hfull : s.queue.length = s.maxPending :=
        Nat.le_antisymm hroom.bounded (Nat.not_lt.mp hlt)
      refine ⟨_, ?_, .inr ⟨hfull, rfl⟩⟩
      simp only [submitStep, hphase, putNowait, if_neg hlt, hroom.overflow]
  | evicting r =>
    have hfull := hroom.full r hphase
    have hpositive := hroom.positive
    cases hqueue : s.queue with
    | nil =>
      rw [hqueue, List.length_nil] at hfull
      omega
    | cons item rest =>
      cases item with
      | record oldest =>
        exact ⟨_, by simp only [submitStep, hphase, hqueue], oldest, rest, rfl, rfl⟩
      | sentinel =>
        rw [hqueue] at hnot
        exact absurd List.mem_cons_self hnot
  | evicted oldest r =>
    -- The queue still counts the record in hand as unfinished.
    have hpos : s.unfinishedTasks ≠ 0 := by
      have hu := hl.unfinished_eq
      simp only [inHand, hphase, SubmitPhase.hand, List.length_append, List.length_cons] at hu
      omega
    refine ⟨_, ?_, rfl⟩
    simp only [submitStep, hphase, taskDone, if_neg hpos, Option.map_some, countEvicted]
  | putBack r => exact absurd hphase (hc.noPutBack r)
  | putAgain r =>
    exact ⟨_, by simp only [submitStep, hphase, putNowait_room (hroom.again r hphase)]; rfl, rfl⟩
  | counting => exact ⟨_, by simp only [submitStep, hphase]; rfl, rfl⟩

theorem room_submit (hl : Ledger s) (hc : Closing s) (hroom : Room s)
    (h : s.submitStep = some t) : Room t := by
  cases hphase : s.submitting with
  | none =>
    simp only [submitStep, hphase] at h
    cases h
  | some phase =>
    obtain ⟨u, hu, hcases⟩ := submit_cases hl hc hroom hphase
    rw [h, Option.some.injEq] at hu
    subst hu
    obtain ⟨hover, hpos, hb, hfull, hevicted, hagain⟩ := hroom
    cases phase with
    | putting r =>
      rcases hcases with ⟨hlt, rfl⟩ | ⟨hmax, rfl⟩
      · refine ⟨hover, hpos, ?_, nofun, nofun, nofun⟩
        simp only [List.length_append, List.length_cons, List.length_nil]
        omega
      · exact ⟨hover, hpos, hb, fun _ _ => hmax, nofun, nofun⟩
    | evicting r =>
      obtain ⟨oldest, rest, hqueue, rfl⟩ := hcases
      have hlen := hfull r hphase
      rw [hqueue, List.length_cons] at hlen
      exact ⟨hover, hpos, by dsimp only; omega, nofun, fun _ _ _ => by dsimp only; omega, nofun⟩
    | evicted oldest r =>
      subst hcases
      exact ⟨hover, hpos, hb, nofun, nofun, fun _ _ => hevicted oldest r hphase⟩
    | putBack r => exact hcases.elim
    | putAgain r =>
      subst hcases
      have hlt := hagain r hphase
      refine ⟨hover, hpos, ?_, nofun, nofun, nofun⟩
      simp only [List.length_append, List.length_cons, List.length_nil]
      omega
    | counting =>
      subst hcases
      exact ⟨hover, hpos, hb, nofun, nofun, nofun⟩

theorem room_step (hl : Ledger s) (hc : Closing s) (hroom : Room s) (hok : TakesOutside s e)
    (h : s.step e = some t) : Room t := by
  by_cases hsubmit : e = .submit
  · subst hsubmit
    exact room_submit hl hc hroom h
  by_cases henter : ∃ r, e = .enter r
  · obtain ⟨r, rfl⟩ := henter
    obtain ⟨hover, hpos, hb, hfull, hevicted, hagain⟩ := hroom
    simp only [step] at h
    split at h
    · split at h
      · cases h
        exact ⟨hover, hpos, hb, hfull, hevicted, hagain⟩
      · cases h
        exact ⟨hover, hpos, hb, by simp, by simp, by simp⟩
    · cases h
  · have haside := step_aside hsubmit (fun r hr => henter ⟨r, hr⟩) h
    have hkeep : ∀ phase, t.submitting = some phase → s.first = none := by
      intro phase hphase
      rw [haside.submitting] at hphase
      exact (hc.submitting hphase).1
    obtain ⟨hover, hpos, hb, hfull, hevicted, hagain⟩ := hroom
    have hshorter : ∀ phase, t.submitting = some phase → t.queue.length ≤ s.queue.length := by
      intro phase hphase
      by_cases htake : e = .take
      · subst htake
        exact take_shorter h
      · exact Nat.le_of_eq (congrArg _ ((step_open (hkeep phase hphase) hsubmit h).2.2.2 htake))
    refine ⟨haside.overflow.trans hover, by rw [haside.maxPending]; exact hpos,
      by rw [haside.maxPending]; exact haside.bounded hb, fun r hr => ?_, fun oldest r hr => ?_,
      fun r hr => ?_⟩
    · have hr' := haside.submitting ▸ hr
      have htake : e ≠ .take := fun htake => hok htake r hr'
      rw [(step_open (hkeep _ hr) hsubmit h).2.2.2 htake, haside.maxPending]
      exact hfull r hr'
    · rw [haside.maxPending]
      exact Nat.lt_of_le_of_lt (hshorter _ hr) (hevicted oldest r (haside.submitting ▸ hr))
    · rw [haside.maxPending]
      exact Nat.lt_of_le_of_lt (hshorter _ hr) (hagain r (haside.submitting ▸ hr))

/-- What the runs of this module keep. -/
structure Submits (s : Dispatcher T) : Prop where
  ledger : Ledger s
  closing : Closing s
  room : Room s

theorem submits_step (h : Submits s) (hok : TakesOutside s e) (hstep : s.step e = some t) :
    Submits t :=
  ⟨ledger_step h.ledger h.closing hstep, closing_step h.closing hstep,
    room_step h.ledger h.closing h.room hok hstep⟩

theorem submits_run {es : List (BufferEvent T)} (h : Submits s)
    (hrun : RunOf step TakesOutside s es t) : Submits t :=
  hrun.invariant Submits (fun _ _ _ hok hI hstep => submits_step hI hok hstep) h

theorem submits_new {maxPending : ℕ} (hmax : 1 ≤ maxPending) :
    Submits (new maxPending .dropOldest : Dispatcher T) :=
  ⟨ledger_new _ _, closing_new _ _, rfl, hmax, Nat.zero_le _, nofun, nofun, nofun⟩

/-! ## What is dropped -/

/-- A step on an open buffer takes the oldest record of a full queue in hand, or counts the record
in hand as dropped, or does neither. -/
theorem Submits.drops (h : Submits s) (hopen : s.closed = false) (hstep : s.step e = some t) :
    (t.inHand = s.inHand ∧ t.evicted = s.evicted ∧ t.dropped = s.dropped) ∨
    (∃ r, t.inHand = [r] ∧ s.inHand = [] ∧ s.queue = .record r :: t.queue ∧
      s.queue.length = s.maxPending ∧ t.evicted = s.evicted ∧ t.dropped = s.dropped) ∨
    ∃ r, s.inHand = [r] ∧ t.inHand = [] ∧ t.evicted = s.evicted ++ [r] ∧
      t.dropped = s.dropped + 1 := by
  obtain ⟨hl, hc, hroom⟩ := h
  have hfirst : s.first = none := by
    rw [hc.closed_iff] at hopen
    simpa using hopen
  by_cases hsubmit : e = .submit
  · subst hsubmit
    cases hphase : s.submitting with
    | none =>
      simp only [step, submitStep, hphase] at hstep
      cases hstep
    | some phase =>
      obtain ⟨u, hu, hcases⟩ := submit_cases hl hc hroom hphase
      rw [show s.submitStep = some t from hstep, Option.some.injEq] at hu
      subst hu
      -- The hands of the two states, from where the submission stands in each.
      have hhand : s.inHand = SubmitPhase.hand (some phase) := by
        rw [inHand, hphase, hfirst]
        exact List.append_nil _
      have hnew : ∀ u : Dispatcher T, u.first = none →
          u.inHand = SubmitPhase.hand u.submitting := by
        intro u hu
        rw [inHand, hu]
        exact List.append_nil _
      rw [hhand]
      cases phase with
      | putting r => rcases hcases with ⟨-, rfl⟩ | ⟨-, rfl⟩ <;> exact .inl ⟨hnew _ hfirst, rfl, rfl⟩
      | evicting r =>
        obtain ⟨oldest, rest, hqueue, rfl⟩ := hcases
        exact .inr (.inl ⟨oldest, hnew _ hfirst, rfl, hqueue, hroom.full r hphase, rfl, rfl⟩)
      | evicted oldest r =>
        subst hcases
        exact .inr (.inr ⟨oldest, rfl, hnew _ hfirst, rfl, rfl⟩)
      | putBack r => exact hcases.elim
      | putAgain r =>
        subst hcases
        exact .inl ⟨hnew _ hfirst, rfl, rfl⟩
      | counting =>
        subst hcases
        exact .inl ⟨hnew _ hfirst, rfl, rfl⟩
  · obtain ⟨hhand, hevicted, hdropped, -⟩ := step_open hfirst hsubmit hstep
    exact .inl ⟨hhand, hevicted, hdropped⟩

/-- The submission that is inside is not turned away. -/
theorem Submits.returns (h : Submits s) {o : SubmitOutcome} (ho : s.submitOutcome = some o) :
    o = .returned true := by
  obtain ⟨-, hc, hroom⟩ := h
  unfold submitOutcome at ho
  cases hphase : s.submitting with
  | none =>
    rw [hphase] at ho
    cases ho
  | some phase =>
    rw [hphase] at ho
    cases phase with
    | putting r =>
      simp only [hroom.overflow] at ho
      split at ho <;> simp_all
    | evicting r =>
      have hfull := hroom.full r hphase
      have hpositive := hroom.positive
      dsimp only at ho
      split at ho
      · rename_i hempty
        rw [List.isEmpty_iff.mp hempty, List.length_nil] at hfull
        omega
      · cases ho
    | evicted oldest r => cases ho
    | putBack r => exact absurd hphase (hc.noPutBack r)
    | putAgain r =>
      simp only [putNowait_room (hroom.again r hphase), Option.isSome_some, if_true] at ho
      cases ho
    | counting => exact (Option.some.inj ho).symm

theorem Submits.keepsNewest (h : Submits s) : KeepsNewest s := by
  refine ⟨fun o ho => h.returns ho, fun hinside => ?_, fun e t hopen hstep => ?_,
    fun e t hopen hstep => ?_⟩
  · obtain ⟨phase, hphase⟩ := Option.ne_none_iff_exists'.mp hinside
    obtain ⟨t, ht, -⟩ := submit_cases h.ledger h.closing h.room hphase
    exact ⟨t, ht⟩
  · rcases h.drops hopen hstep with ⟨hsame, -⟩ | ⟨r, hr, hs, hqueue, hfull, -⟩ | ⟨r, -, ht, -⟩
    · exact .inl hsame
    · exact .inr (.inr ⟨r, hr, hs, hqueue, hfull⟩)
    · exact .inr (.inl ht)
  · rcases h.drops hopen hstep with ⟨-, hsame⟩ | ⟨r, -, -, -, -, hsame⟩ | hdropped
    · exact .inl hsame
    · exact .inl hsame
    · exact .inr hdropped

/-! ## The record of a call -/

/-- The call that began in `s` with the record `r` has not yet put it, or has put it, or has
returned. -/
structure Carries (s : Dispatcher T) (r : T) (t : Dispatcher T) : Prop where
  record : ∀ phase, t.submitting = some phase → phase = .counting ∨ phase = .putting r ∨
    phase = .evicting r ∨ phase = .putAgain r ∨ ∃ oldest, phase = .evicted oldest r
  before : ∀ phase, t.submitting = some phase → phase ≠ .counting →
    t.accepted = s.accepted ∧ t.enqueued = s.enqueued
  counting : t.submitting = some .counting →
    t.accepted = s.accepted ++ [r] ∧ t.enqueued = s.enqueued
  after : t.submitting = none → t.accepted = s.accepted ++ [r] ∧ t.enqueued = s.enqueued + 1

theorem carries_step {r : T} {u : Dispatcher T} (h : Submits t) (hcarries : Carries s r t)
    (henter : ∀ r', e ≠ .enter r') (hstep : t.step e = some u) : Carries s r u := by
  by_cases hsubmit : e = .submit
  · subst hsubmit
    cases hphase : t.submitting with
    | none =>
      simp only [step, submitStep, hphase] at hstep
      cases hstep
    | some phase =>
      obtain ⟨v, hv, hcases⟩ := submit_cases h.ledger h.closing h.room hphase
      rw [show t.submitStep = some u from hstep, Option.some.injEq] at hv
      subst hv
      rcases hcarries.record phase hphase with rfl | rfl | rfl | rfl | ⟨oldest, rfl⟩
      · obtain ⟨haccepted, henqueued⟩ := hcarries.counting hphase
        subst hcases
        exact ⟨by simp, by simp, by simp, fun _ => ⟨haccepted, by dsimp only; rw [henqueued]⟩⟩
      · obtain ⟨haccepted, henqueued⟩ := hcarries.before _ hphase (by simp)
        rcases hcases with ⟨-, rfl⟩ | ⟨-, rfl⟩
        · refine ⟨?_, ?_, fun _ => ⟨by dsimp only; rw [haccepted], henqueued⟩, by simp⟩
          · exact fun phase hp => .inl (Option.some.inj hp).symm
          · exact fun phase hp hne => absurd (Option.some.inj hp).symm hne
        · refine ⟨?_, fun _ _ _ => ⟨haccepted, henqueued⟩, by simp, by simp⟩
          exact fun phase hp => .inr (.inr (.inl (Option.some.inj hp).symm))
      · obtain ⟨haccepted, henqueued⟩ := hcarries.before _ hphase (by simp)
        obtain ⟨oldest, rest, -, rfl⟩ := hcases
        refine ⟨?_, fun _ _ _ => ⟨haccepted, henqueued⟩, by simp, by simp⟩
        exact fun phase hp => .inr (.inr (.inr (.inr ⟨oldest, (Option.some.inj hp).symm⟩)))
      · obtain ⟨haccepted, henqueued⟩ := hcarries.before _ hphase (by simp)
        subst hcases
        refine ⟨?_, ?_, fun _ => ⟨by dsimp only; rw [haccepted], henqueued⟩, by simp⟩
        · exact fun phase hp => .inl (Option.some.inj hp).symm
        · exact fun phase hp hne => absurd (Option.some.inj hp).symm hne
      · obtain ⟨haccepted, henqueued⟩ := hcarries.before _ hphase (by simp)
        subst hcases
        refine ⟨?_, fun _ _ _ => ⟨haccepted, henqueued⟩, by simp, by simp⟩
        exact fun phase hp => .inr (.inr (.inr (.inl (Option.some.inj hp).symm)))
  · have haside := step_aside hsubmit henter hstep
    obtain ⟨hrecord, hbefore, hcounting, hafter⟩ := hcarries
    refine ⟨?_, ?_, ?_, ?_⟩ <;> rw [haside.submitting]
    · exact hrecord
    · rw [haside.accepted, haside.enqueued]
      exact hbefore
    · rw [haside.accepted, haside.enqueued]
      exact hcounting
    · rw [haside.accepted, haside.enqueued]
      exact hafter

/-- A call with the record `r` ends with that record accepted and counted. -/
theorem Submits.carries {r : T} {u : Dispatcher T} {ms : List (BufferEvent T)} (h : Submits s)
    (hopen : s.closed = false) (hstep : s.step (.enter r) = some t)
    (hrun : RunOf step TakesOutside t ms u) (hms : ∀ m ∈ ms, ∀ r', m ≠ .enter r') :
    Carries s r u := by
  have htop : Submits t := submits_step h (fun htake => by cases htake) hstep
  have hbegin : Carries s r t := by
    simp only [step, hopen, Bool.false_eq_true, if_false] at hstep
    split at hstep
    · cases hstep
      refine ⟨fun phase hp => .inr (.inl (Option.some.inj hp).symm), fun _ _ _ => ⟨rfl, rfl⟩,
        by simp, by simp⟩
    · cases hstep
  exact ((hrun.and_labels hms).invariant (fun u => Submits u ∧ Carries s r u)
    (fun _ _ _ hok hI hs => ⟨submits_step hI.1 hok.1 hs, carries_step hI.1 hI.2 hok.2 hs⟩)
    ⟨htop, hbegin⟩).2

/-! ## The worker between the two -/

/-- The worker takes a record where the submission is about to take the oldest one: the queue is
then no longer full, or empty. -/
theorem Submits.interrupted {r : T} (h : Submits s) (hphase : s.submitting = some (.evicting r))
    (hstep : s.step .take = some t) : ¬ KeepsNewest t := by
  intro hkeeps
  obtain ⟨hfirst, hnot⟩ := h.closing.submitting hphase
  have hfull := h.room.full r hphase
  have hopen : s.closed = false := by rw [h.closing.closed_iff, hfirst]; rfl
  simp only [step, take] at hstep
  split at hstep
  · rename_i taken rest hworker hqueue
    cases hstep
    cases rest with
    | nil =>
      have := hkeeps.returns (.returned false) (by simp only [submitOutcome, hphase]; rfl)
      cases this
    | cons item rest =>
      rw [hqueue] at hnot hfull
      cases item with
      | sentinel => exact hnot (List.mem_cons_of_mem _ List.mem_cons_self)
      | record oldest =>
        rcases hkeeps.oldest .submit _ hopen (by simp only [step, submitStep, hphase]; rfl) with
          hsame | hnone | ⟨_, _, _, _, hlength⟩
        · simp [inHand, hphase, hfirst, SubmitPhase.hand, ClosePhase.hand] at hsame
        · simp [inHand, hfirst, SubmitPhase.hand, ClosePhase.hand] at hnone
        · simp only [List.length_cons] at hfull hlength
          omega
  · rename_i rest _ hqueue
    rw [hqueue] at hnot
    exact absurd List.mem_cons_self hnot
  · cases hstep

/-- In every state of every run of an open or closing buffer in which the worker takes no record
between a submission finding the queue full and its taking the oldest one. -/
theorem drop_oldest_keeps_newest {maxPending : ℕ} {es : List (BufferEvent T)}
    (hmax : 1 ≤ maxPending)
    (hrun : RunOf step TakesOutside (new maxPending .dropOldest) es s) :
    KeepsNewest s ∧
      (∀ r t ms u, s.closed = false → s.step (.enter r) = some t →
        RunOf step TakesOutside t ms u → (∀ m ∈ ms, ∀ r', m ≠ .enter r') → u.submitting = none →
        u.accepted = s.accepted ++ [r] ∧ u.enqueued = s.enqueued + 1) ∧
      ∀ r t, s.submitting = some (.evicting r) → s.step .take = some t → ¬ KeepsNewest t := by
  have h := submits_run (submits_new hmax) hrun
  exact ⟨h.keepsNewest, fun r t ms u hopen hstep hrest hms hreturned =>
    (h.carries hopen hstep hrest hms).after hreturned, fun r t => h.interrupted⟩

/-- Two records come to a queue for one; the second call takes the first record out. -/
theorem drop_oldest_keeps_newest_second :
    ∃ s, RunOf step TakesOutside (new 1 .dropOldest : Dispatcher ℕ)
        [.enter 7, .submit, .submit, .enter 8, .submit, .submit] s ∧
      s.submitting = some (.evicted 7 8) ∧ s.KeepsNewest := by
  have hall := exec_run (show exec step (new 1 .dropOldest : Dispatcher ℕ)
    [.enter 7, .submit, .submit, .enter 8, .submit, .submit] = some _ from rfl)
  have hrun : RunOf step TakesOutside _ _ _ :=
    (RunOf.of_labels (p := fun e => e ≠ .take) hall (by decide)).mono
      fun _ _ hne htake => absurd htake hne
  exact ⟨_, hrun, rfl, (drop_oldest_keeps_newest (Nat.le_refl 1) hrun).1⟩

/-- The worker takes the only record after the second call has found the queue full: that call
drops its own record and returns false. -/
theorem worker_between_counterexample :
    ∃ s, Run step (new 1 .dropOldest : Dispatcher ℕ)
        [.enter 7, .submit, .submit, .enter 8, .submit, .take] s ∧
      s.closed = false ∧ s.submitOutcome = some (.returned false) ∧
      ∃ t, s.step .submit = some t ∧ t.accepted = [7] ∧ t.dropped = 1 ∧ t.queue = [] := by
  refine ⟨_, exec_run rfl, rfl, rfl, _, rfl, rfl, rfl, rfl⟩

end Dispatcher
end Coalestra
