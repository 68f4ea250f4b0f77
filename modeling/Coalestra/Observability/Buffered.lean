import Mathlib.Data.List.Basic
import Mathlib.Data.List.Count
import Coalestra.Lib.Runs

/-! # The buffered sink

`observability/buffered.py`: one `_BufferedDispatcher` with its queue, its counters, the worker
thread, the threads that submit and those that flush or close. Queue operations and updates under
the condition are single steps. A submission holds the condition from its check of `_closed` to its
return, so at most one stands between two of its steps; the worker and the closers need the
condition only for their own updates, and the queue not at all.

The state keeps what the program forgets: the accepted records in order, those handed to the
handler, and how each one ended. -/

namespace Coalestra
set_option autoImplicit false
set_option maxHeartbeats 250000

inductive BufferOverflowPolicy
  | dropOldest
  | dropNewest
  | raise
  deriving DecidableEq, Repr

section
variable (T : Type)

/-- What the queue holds: records, and the sentinel that stops the worker. -/
inductive QueueItem
  | record (r : T)
  | sentinel
  deriving DecidableEq, Repr

/-- Where `submit` stands while it holds the condition. -/
inductive SubmitPhase
  | putting (r : T)
  | evicting (r : T)
  | evicted (oldest r : T)
  | putBack (r : T)
  | putAgain (r : T)
  | counting
  deriving DecidableEq, Repr

/-- Where `_run` stands. -/
inductive WorkerPhase
  | idle
  | handling (r : T)
  | counted
  | settling
  | stopping
  | stopped
  deriving DecidableEq, Repr

/-- Where `close` stands after it has set `_closed`. -/
inductive ClosePhase
  | flushing
  | discarding
  | discarded (r : T)
  | announcing
  | placing
  | displacing
  | displaced (r : T)
  | joining
  | returned (stopped : Bool)
  deriving DecidableEq, Repr

/-- A `_BufferedDispatcher`. `first` is the `close` that found it open, `later` are the others. -/
structure Dispatcher where
  maxPending : ℕ
  overflow : BufferOverflowPolicy
  queue : List (QueueItem T)
  unfinishedTasks : ℕ
  enqueued : ℕ
  delivered : ℕ
  dropped : ℕ
  failures : ℕ
  pending : ℕ
  peakPending : ℕ
  closed : Bool
  sentinelEnqueued : Bool
  shutdownTimeoutCount : ℕ
  submitting : Option (SubmitPhase T)
  worker : WorkerPhase T
  first : Option (ClosePhase T)
  later : List (ClosePhase T)
  accepted : List T
  handled : List T
  deliveredRecords : List T
  failedRecords : List T
  evicted : List T

/-- What a thread does next. `timedOut` ends a wait whose deadline has passed. -/
inductive BufferEvent
  | enter (r : T)
  | submit
  | take
  | handlerEnds (raised : Bool)
  | taskDone
  | settle
  | flush
  | close (drain : Bool)
  | closer (timedOut : Bool)
  | laterCloser (i : ℕ) (timedOut : Bool)
  deriving DecidableEq, Repr

end

namespace Dispatcher
variable {T : Type}

/-- A dispatcher as `__init__` leaves it. -/
def new (maxPending : ℕ) (overflow : BufferOverflowPolicy) : Dispatcher T :=
  ⟨maxPending, overflow, [], 0, 0, 0, 0, 0, 0, 0, false, false, 0, none, .idle, none, [], [], [], [],
    [], []⟩

/-- Nobody is inside `submit`, so the condition can be taken. -/
def conditionFree (s : Dispatcher T) : Bool := s.submitting.isNone

/-- `Queue.put_nowait`, or `queue.Full`. -/
def putNowait (s : Dispatcher T) (item : QueueItem T) : Option (Dispatcher T) :=
  if s.queue.length < s.maxPending then
    some { s with queue := s.queue ++ [item], unfinishedTasks := s.unfinishedTasks + 1 }
  else none

/-- `Queue.task_done`, or `ValueError` when it is called too often. -/
def taskDone (s : Dispatcher T) : Option (Dispatcher T) :=
  if s.unfinishedTasks = 0 then none
  else some { s with unfinishedTasks := s.unfinishedTasks - 1 }

/-- The update for a record that leaves without being handled. -/
def countEvicted (s : Dispatcher T) (r : T) : Dispatcher T :=
  { s with dropped := s.dropped + 1, pending := s.pending - 1, evicted := s.evicted ++ [r] }

/-- `submit` returns or raises. -/
def leave (s : Dispatcher T) : Dispatcher T := { s with submitting := none }

/-- The record is in the queue; `submit` counts it next. -/
def accept (s : Dispatcher T) (r : T) : Dispatcher T :=
  { s with submitting := some .counting, accepted := s.accepted ++ [r] }

/-- The next step of the submission that holds the condition. -/
def submitStep (s : Dispatcher T) : Option (Dispatcher T) :=
  match s.submitting with
  | none => none
  | some (.putting r) =>
    match s.putNowait (.record r) with
    | some s' => some (s'.accept r)
    | none =>
      match s.overflow with
      | .dropNewest => some { s with dropped := s.dropped + 1 }.leave
      | .raise => some s.leave
      | .dropOldest => some { s with submitting := some (.evicting r) }
  | some (.evicting r) =>
    match s.queue with
    | [] => some { s with dropped := s.dropped + 1 }.leave
    | .sentinel :: rest => some { s with queue := rest, submitting := some (.putBack r) }
    | .record oldest :: rest => some { s with queue := rest, submitting := some (.evicted oldest r) }
  | some (.putBack _) =>
    match s.putNowait .sentinel with
    | some s' => some { s' with dropped := s.dropped + 1 }.leave
    | none => some s.leave
  | some (.evicted oldest r) =>
    s.taskDone.map fun s' => { s'.countEvicted oldest with submitting := some (.putAgain r) }
  | some (.putAgain r) =>
    match s.putNowait (.record r) with
    | some s' => some (s'.accept r)
    | none => some s.leave
  | some .counting =>
    some { s with
      enqueued := s.enqueued + 1
      pending := s.pending + 1
      peakPending := max s.peakPending (s.pending + 1) }.leave

/-- `record = self._queue.get()`, for the worker a blocking call. -/
def take (s : Dispatcher T) : Option (Dispatcher T) :=
  match s.worker, s.queue with
  | .idle, .record r :: rest =>
    some { s with queue := rest, worker := .handling r, handled := s.handled ++ [r] }
  | .idle, .sentinel :: rest => some { s with queue := rest, worker := .stopping }
  | _, _ => none

/-- The handler has returned or raised, and the outcome is counted. -/
def handlerEnds (s : Dispatcher T) (raised : Bool) : Option (Dispatcher T) :=
  match s.worker with
  | .handling r =>
    if s.conditionFree then
      some (if raised then
        { s with
          worker := .counted
          failures := s.failures + 1
          failedRecords := s.failedRecords ++ [r] }
      else
        { s with
          worker := .counted
          delivered := s.delivered + 1
          deliveredRecords := s.deliveredRecords ++ [r] })
    else none
  | _ => none

/-- `task_done` of the worker, after a record or after the sentinel. -/
def workerDone (s : Dispatcher T) : Option (Dispatcher T) :=
  match s.worker with
  | .counted => s.taskDone.map fun s' => { s' with worker := .settling }
  | .stopping => s.taskDone.map fun s' => { s' with worker := .stopped }
  | _ => none

/-- The worker gives up the record it has accounted for. -/
def settle (s : Dispatcher T) : Option (Dispatcher T) :=
  match s.worker with
  | .settling =>
    if s.conditionFree then some { s with worker := .idle, pending := s.pending - 1 } else none
  | _ => none

/-- `close` up to its first wait. -/
def close (s : Dispatcher T) (drain : Bool) : Option (Dispatcher T) :=
  if s.conditionFree then
    if s.closed then
      some { s with later := s.later ++ [if drain then .flushing else .joining] }
    else
      some { s with closed := true, first := some (if drain then .flushing else .discarding) }
  else none

/-- The end of `close`: `join` has come back. -/
def joined (s : Dispatcher T) (timedOut : Bool) : Option (ClosePhase T × Dispatcher T) :=
  if s.worker matches .stopped then some (.returned true, s)
  else if timedOut && s.conditionFree then
    some (.returned false, { s with shutdownTimeoutCount := s.shutdownTimeoutCount + 1 })
  else none

/-- The next step of the `close` that found the dispatcher open. -/
def closerStep (s : Dispatcher T) (timedOut : Bool) : Option (Dispatcher T) :=
  match s.first with
  | some .flushing =>
    if s.conditionFree then
      if s.pending = 0 then some { s with first := some .announcing }
      else if timedOut then some { s with first := some .discarding }
      else none
    else none
  | some .discarding =>
    match s.queue with
    | [] => some { s with first := some .announcing }
    | .sentinel :: rest =>
      some { s with
        queue := rest ++ [.sentinel]
        unfinishedTasks := s.unfinishedTasks + 1
        first := some .announcing }
    | .record r :: rest => some { s with queue := rest, first := some (.discarded r) }
  | some (.discarded r) =>
    if s.conditionFree then
      s.taskDone.map fun s' => { s'.countEvicted r with first := some .discarding }
    else none
  | some .announcing =>
    if s.conditionFree then
      if s.sentinelEnqueued then some { s with first := some .joining }
      else some { s with sentinelEnqueued := true, first := some .placing }
    else none
  | some .placing =>
    match s.putNowait .sentinel with
    | some s' => some { s' with first := some .joining }
    | none => some { s with first := some .displacing }
  | some .displacing =>
    match s.queue with
    | [] => some { s with first := some .placing }
    | .sentinel :: rest =>
      some { s with
        queue := rest ++ [.sentinel]
        unfinishedTasks := s.unfinishedTasks + 1
        first := some .joining }
    | .record r :: rest => some { s with queue := rest, first := some (.displaced r) }
  | some (.displaced r) =>
    if s.conditionFree then
      s.taskDone.map fun s' => { s'.countEvicted r with first := some .placing }
    else none
  | some .joining => (s.joined timedOut).map fun r => { r.2 with first := some r.1 }
  | _ => none

/-- The next step of another `close`, which only waits. -/
def laterStep (s : Dispatcher T) (i : ℕ) (timedOut : Bool) : Option (Dispatcher T) :=
  match s.later[i]? with
  | some .flushing =>
    if s.conditionFree && (decide (s.pending = 0) || timedOut) then
      some { s with later := s.later.set i .joining }
    else none
  | some .joining => (s.joined timedOut).map fun r => { r.2 with later := r.2.later.set i r.1 }
  | _ => none

def step (s : Dispatcher T) : BufferEvent T → Option (Dispatcher T)
  | .enter r =>
    if s.conditionFree then
      if s.closed then some s else some { s with submitting := some (.putting r) }
    else none
  | .submit => s.submitStep
  | .take => s.take
  | .handlerEnds raised => s.handlerEnds raised
  | .taskDone => s.workerDone
  | .settle => s.settle
  | .flush => if s.conditionFree then some s else none
  | .close drain => s.close drain
  | .closer timedOut => s.closerStep timedOut
  | .laterCloser i timedOut => s.laterStep i timedOut

/-! ## Where the accepted records are -/

end Dispatcher

section
variable {T : Type}

/-- The records among the items of the queue. -/
def recordsOf : List (QueueItem T) → List T
  | [] => []
  | .record r :: rest => r :: recordsOf rest
  | .sentinel :: rest => recordsOf rest

@[simp] theorem recordsOf_nil : recordsOf ([] : List (QueueItem T)) = [] := rfl

@[simp] theorem recordsOf_record (r : T) (rest : List (QueueItem T)) :
    recordsOf (.record r :: rest) = r :: recordsOf rest := rfl

@[simp] theorem recordsOf_sentinel (rest : List (QueueItem T)) :
    recordsOf (.sentinel :: rest) = recordsOf rest := rfl

@[simp] theorem recordsOf_append (l m : List (QueueItem T)) :
    recordsOf (l ++ m) = recordsOf l ++ recordsOf m := by
  induction l with
  | nil => rfl
  | cons item l ih =>
    cases item with
    | record r => rw [List.cons_append, recordsOf_record, recordsOf_record, ih, List.cons_append]
    | sentinel => rw [List.cons_append, recordsOf_sentinel, recordsOf_sentinel, ih]

/-- The record a submission has taken out of the queue and not yet counted as dropped. -/
def SubmitPhase.hand : Option (SubmitPhase T) → List T
  | some (.evicted oldest _) => [oldest]
  | _ => []

/-- One while the record is in the queue and not yet counted. -/
def SubmitPhase.uncounted : Option (SubmitPhase T) → ℕ
  | some .counting => 1
  | _ => 0

/-- The record in the handler. -/
def WorkerPhase.current : WorkerPhase T → List T
  | .handling r => [r]
  | _ => []

/-- One while the worker has counted an outcome and not yet given the record up. -/
def WorkerPhase.due : WorkerPhase T → ℕ
  | .counted => 1
  | .settling => 1
  | _ => 0

/-- One while the worker owes the queue a `task_done`. -/
def WorkerPhase.taken : WorkerPhase T → ℕ
  | .handling _ => 1
  | .counted => 1
  | .stopping => 1
  | _ => 0

/-- The record `close` has taken out of the queue and not yet counted as dropped. -/
def ClosePhase.hand : Option (ClosePhase T) → List T
  | some (.discarded r) => [r]
  | some (.displaced r) => [r]
  | _ => []

end

namespace Dispatcher
variable {T : Type}

/-- Records that were taken out of the queue to be dropped. -/
def inHand (s : Dispatcher T) : List T := SubmitPhase.hand s.submitting ++ ClosePhase.hand s.first

/-- Every accepted record is in one place, and the counters count the places. -/
structure Ledger (s : Dispatcher T) : Prop where
  ordered : (s.handled ++ recordsOf s.queue).Sublist s.accepted
  accounted : ∀ p : T → Bool, s.accepted.countP p = s.deliveredRecords.countP p +
    s.failedRecords.countP p + s.evicted.countP p + s.worker.current.countP p +
    s.inHand.countP p + (recordsOf s.queue).countP p
  delivered_eq : s.delivered = s.deliveredRecords.length
  failures_eq : s.failures = s.failedRecords.length
  enqueued_eq : s.enqueued + SubmitPhase.uncounted s.submitting = s.accepted.length
  pending_eq : s.pending + SubmitPhase.uncounted s.submitting =
    s.worker.current.length + s.worker.due + s.inHand.length + (recordsOf s.queue).length
  unfinished_eq : s.unfinishedTasks = s.queue.length + s.worker.taken + s.inHand.length

/-- The worker has met the sentinel. -/
def WorkerPhase.ended : WorkerPhase T → Bool
  | .stopping => true
  | .stopped => true
  | _ => false

/-- `close` has put the sentinel into the queue. -/
def ClosePhase.placed : Option (ClosePhase T) → Bool
  | some .joining => true
  | some (.returned _) => true
  | _ => false

/-- `close` has announced the sentinel and may put it into the queue. -/
def ClosePhase.announced : Option (ClosePhase T) → Bool
  | some .placing => true
  | some .displacing => true
  | some (.displaced _) => true
  | some .joining => true
  | some (.returned _) => true
  | _ => false

/-- The order of events at the end of the dispatcher's life. -/
structure Closing (s : Dispatcher T) : Prop where
  closed_iff : s.closed = s.first.isSome
  quiet : s.closed = true → s.submitting = none
  noPutBack : ∀ r, s.submitting ≠ some (.putBack r)
  flag : s.sentinelEnqueued = ClosePhase.announced s.first
  before : ClosePhase.placed s.first = false →
    .sentinel ∉ s.queue ∧ WorkerPhase.ended s.worker = false
  after : ClosePhase.placed s.first = true →
    (∃ rs : List T, s.queue = rs.map .record ++ [.sentinel]) ∧
      WorkerPhase.ended s.worker = false ∨ s.queue = [] ∧ WorkerPhase.ended s.worker = true
  firstReturned : s.first = some (.returned true) → s.worker = .stopped
  laterReturned : .returned true ∈ s.later → s.worker = .stopped


section
variable {s t : Dispatcher T}

theorem putNowait_eq {item : QueueItem T} (h : s.putNowait item = some t) :
    t = { s with queue := s.queue ++ [item], unfinishedTasks := s.unfinishedTasks + 1 } := by
  unfold putNowait at h
  split at h
  · exact (Option.some.inj h).symm
  · cases h

theorem taskDone_eq (h : s.taskDone = some t) :
    t = { s with unfinishedTasks := s.unfinishedTasks - 1 } ∧ 0 < s.unfinishedTasks := by
  unfold taskDone at h
  split at h
  · cases h
  · rename_i hne
    exact ⟨(Option.some.inj h).symm, Nat.pos_of_ne_zero hne⟩

/-- A submission puts its record: the record is accepted and not yet counted. -/
theorem Ledger.accept {r : T} (h : Ledger s) (hhand : SubmitPhase.hand s.submitting = [])
    (hcount : SubmitPhase.uncounted s.submitting = 0) (hput : s.putNowait (.record r) = some t) :
    Ledger (t.accept r) := by
  rw [putNowait_eq hput]
  obtain ⟨ho, ha, hd, hf, he, hp, hu⟩ := h
  simp only [inHand, hhand, hcount, List.nil_append] at ho ha he hp hu
  constructor
  · simpa [Dispatcher.accept, ← List.append_assoc] using ho.append (List.Sublist.refl [r])
  · intro p
    have := ha p
    simp only [Dispatcher.accept, inHand, SubmitPhase.hand, recordsOf_append, recordsOf_record,
      recordsOf_nil, List.countP_append, List.nil_append]
    omega
  · exact hd
  · exact hf
  · simp [Dispatcher.accept, SubmitPhase.uncounted]
    omega
  · simp [Dispatcher.accept, inHand, SubmitPhase.hand, SubmitPhase.uncounted]
    omega
  · simp [Dispatcher.accept, inHand, SubmitPhase.hand]
    omega

/-- While a submission is inside, nothing has begun to close. -/
theorem Closing.submitting (hc : Closing s) {phase : SubmitPhase T}
    (h : s.submitting = some phase) : s.first = none ∧ .sentinel ∉ s.queue := by
  have hopen : s.first = none := by
    have hquiet := hc.quiet
    rw [h, hc.closed_iff] at hquiet
    cases hf : s.first with
    | none => rfl
    | some c =>
      rw [hf] at hquiet
      cases hquiet rfl
  exact ⟨hopen, (hc.before (by rw [hopen]; rfl)).1⟩

/-- A submission keeps the ledger: its record is accepted, turned away, or replaces the oldest one,
which is dropped. -/
theorem ledger_submit (h : Ledger s) (hc : Closing s) (hs : s.submitStep = some t) : Ledger t := by
  unfold submitStep at hs
  cases hphase : s.submitting with
  | none => rw [hphase] at hs; cases hs
  | some phase =>
    obtain ⟨-, hnot⟩ := hc.submitting hphase
    rw [hphase] at hs
    have hkept := h
    obtain ⟨ho, ha, hd, hf, he, hp, hu⟩ := h
    unfold inHand at ha hp hu
    rw [hphase] at ha he hp hu
    cases phase with
    | putting r =>
      dsimp only at hs
      split at hs
      · rename_i s' hput
        cases hs
        exact hkept.accept (by rw [hphase]; rfl) (by rw [hphase]; rfl) hput
      · split at hs
        · cases hs
          exact ⟨ho, ha, hd, hf, he, hp, hu⟩
        · cases hs
          exact ⟨ho, ha, hd, hf, he, hp, hu⟩
        · cases hs
          exact ⟨ho, ha, hd, hf, he, hp, hu⟩
    | evicting r =>
      dsimp only at hs
      split at hs
      · cases hs
        exact ⟨ho, ha, hd, hf, he, hp, hu⟩
      · rename_i hqueue
        rw [hqueue] at hnot
        exact absurd List.mem_cons_self hnot
      · rename_i oldest rest hqueue
        cases hs
        rw [hqueue] at ho ha hp hu
        simp only [SubmitPhase.hand, SubmitPhase.uncounted, recordsOf_record, List.nil_append,
          List.countP_cons, List.length_cons] at ho ha he hp hu
        refine ⟨?_, fun p => ?_, hd, hf, he, ?_, ?_⟩
        · exact (List.Sublist.append_left (List.sublist_cons_self _ _) _).trans ho
        · have := ha p
          simp only [inHand, SubmitPhase.hand, List.countP_append, List.countP_cons,
            List.countP_nil]
          omega
        · simp only [inHand, SubmitPhase.hand, SubmitPhase.uncounted, List.length_append,
            List.length_cons, List.length_nil]
          omega
        · simp only [inHand, SubmitPhase.hand, List.length_append, List.length_cons,
            List.length_nil]
          omega
    | evicted oldest r =>
      obtain ⟨s', hdone, rfl⟩ := Option.map_eq_some_iff.mp hs
      obtain ⟨rfl, hpos⟩ := taskDone_eq hdone
      simp only [SubmitPhase.hand, SubmitPhase.uncounted, List.countP_append, List.countP_cons,
        List.countP_nil, List.length_append, List.length_cons, List.length_nil] at ha he hp hu
      refine ⟨ho, fun p => ?_, hd, hf, he, ?_, ?_⟩
      · have := ha p
        simp only [countEvicted, inHand, SubmitPhase.hand, List.countP_append, List.countP_cons,
          List.countP_nil]
        omega
      · simp only [countEvicted, inHand, SubmitPhase.hand, SubmitPhase.uncounted,
          List.nil_append]
        omega
      · simp only [countEvicted, inHand, SubmitPhase.hand, List.nil_append]
        omega
    | putBack r => exact absurd hphase (hc.noPutBack r)
    | putAgain r =>
      dsimp only at hs
      split at hs
      · rename_i s' hput
        cases hs
        exact hkept.accept (by rw [hphase]; rfl) (by rw [hphase]; rfl) hput
      · cases hs
        exact ⟨ho, ha, hd, hf, he, hp, hu⟩
    | counting =>
      cases hs
      simp only [SubmitPhase.uncounted] at he hp
      refine ⟨ho, ha, hd, hf, ?_, ?_, hu⟩
      · simp only [leave, SubmitPhase.uncounted]
        omega
      · simp only [leave, inHand, SubmitPhase.hand, SubmitPhase.uncounted] at hp ⊢
        omega

theorem ledger_take (h : Ledger s) (hs : s.take = some t) : Ledger t := by
  unfold take at hs
  obtain ⟨ho, ha, hd, hf, he, hp, hu⟩ := h
  split at hs
  · rename_i r rest hworker hqueue
    cases hs
    rw [hqueue] at ho ha hp hu
    rw [hworker] at ha hp hu
    simp only [WorkerPhase.current, WorkerPhase.due, WorkerPhase.taken, recordsOf_record,
      List.countP_cons, List.countP_nil, List.length_cons, List.length_nil] at ho ha hp hu
    refine ⟨?_, fun p => ?_, hd, hf, he, ?_, ?_⟩
    · rw [List.append_assoc]
      exact ho
    · have := ha p
      simp only [WorkerPhase.current, inHand, List.countP_cons, List.countP_nil] at this ⊢
      omega
    · simp only [WorkerPhase.current, WorkerPhase.due, inHand, List.length_cons,
        List.length_nil] at hp ⊢
      omega
    · simp only [WorkerPhase.taken, inHand] at hu ⊢
      omega
  · rename_i rest hworker hqueue
    cases hs
    rw [hqueue] at ho ha hp hu
    rw [hworker] at ha hp hu
    simp only [WorkerPhase.taken, List.length_cons] at hu
    refine ⟨ho, ha, hd, hf, he, hp, ?_⟩
    simp only [WorkerPhase.taken, inHand] at hu ⊢
    omega
  · cases hs

theorem ledger_handlerEnds {raised : Bool} (h : Ledger s) (hs : s.handlerEnds raised = some t) :
    Ledger t := by
  unfold handlerEnds at hs
  obtain ⟨ho, ha, hd, hf, he, hp, hu⟩ := h
  split at hs
  · rename_i r hworker
    rw [hworker] at ha hp hu
    simp only [WorkerPhase.current, WorkerPhase.due, List.countP_cons, List.countP_nil,
      List.length_cons, List.length_nil] at ha hp
    split at hs
    · cases raised with
      | true =>
        simp only [if_true, Option.some.injEq] at hs
        subst hs
        refine ⟨ho, fun p => ?_, hd, ?_, he, ?_, hu⟩
        · have := ha p
          simp only [WorkerPhase.current, inHand, List.countP_append, List.countP_cons,
            List.countP_nil] at this ⊢
          omega
        · simp only [List.length_append, List.length_cons, List.length_nil]
          omega
        · simp only [WorkerPhase.current, WorkerPhase.due, inHand, List.length_nil] at hp ⊢
          omega
      | false =>
        simp only [Bool.false_eq_true, if_false, Option.some.injEq] at hs
        subst hs
        refine ⟨ho, fun p => ?_, ?_, hf, he, ?_, hu⟩
        · have := ha p
          simp only [WorkerPhase.current, inHand, List.countP_append, List.countP_cons,
            List.countP_nil] at this ⊢
          omega
        · simp only [List.length_append, List.length_cons, List.length_nil]
          omega
        · simp only [WorkerPhase.current, WorkerPhase.due, inHand, List.length_nil] at hp ⊢
          omega
    · cases hs
  · cases hs

theorem ledger_workerDone (h : Ledger s) (hs : s.workerDone = some t) : Ledger t := by
  unfold workerDone at hs
  obtain ⟨ho, ha, hd, hf, he, hp, hu⟩ := h
  split at hs
  all_goals first
    | cases hs
    | (rename_i hworker
       obtain ⟨s', hdone, rfl⟩ := Option.map_eq_some_iff.mp hs
       obtain ⟨rfl, hpos⟩ := taskDone_eq hdone
       rw [hworker] at ha hp hu
       simp only [WorkerPhase.taken] at hu
       refine ⟨ho, ha, hd, hf, he, hp, ?_⟩
       simp only [WorkerPhase.taken, inHand] at hu ⊢
       omega)

/-- Without a submission inside, nothing is taken out and nothing is uncounted on its account. -/
theorem hands_free (h : s.conditionFree = true) :
    SubmitPhase.hand s.submitting = [] ∧ SubmitPhase.uncounted s.submitting = 0 := by
  unfold conditionFree at h
  rw [Option.isNone_iff_eq_none] at h
  rw [h]
  exact ⟨rfl, rfl⟩

theorem ledger_settle (h : Ledger s) (hs : s.settle = some t) : Ledger t := by
  unfold settle at hs
  obtain ⟨ho, ha, hd, hf, he, hp, hu⟩ := h
  split at hs
  · rename_i hworker
    split at hs
    · rename_i hfree
      cases hs
      rw [hworker] at ha hp hu
      rw [(hands_free hfree).2] at hp
      refine ⟨ho, ha, hd, hf, he, ?_, hu⟩
      simp only [WorkerPhase.current, WorkerPhase.due, inHand, (hands_free hfree).2,
        List.length_nil] at hp ⊢
      omega
    · cases hs
  · cases hs

/-- A record that `close` has in hand is dropped. -/
theorem Ledger.drop {r : T} {phase : ClosePhase T} (h : Ledger s) (hfree : s.conditionFree = true)
    (hfirst : ClosePhase.hand s.first = [r]) (hphase : ClosePhase.hand (some phase) = [])
    (hdone : s.taskDone = some t) : Ledger { t.countEvicted r with first := some phase } := by
  obtain ⟨rfl, hpos⟩ := taskDone_eq hdone
  obtain ⟨ho, ha, hd, hf, he, hp, hu⟩ := h
  simp only [inHand, hfirst, (hands_free hfree).1, (hands_free hfree).2, List.nil_append,
    List.countP_cons, List.countP_nil, List.length_cons, List.length_nil] at ha hp hu
  refine ⟨ho, fun p => ?_, hd, hf, he, ?_, ?_⟩
  · have := ha p
    simp only [countEvicted, inHand, hphase, (hands_free hfree).1, List.countP_append,
      List.countP_cons, List.countP_nil]
    omega
  · simp only [countEvicted, inHand, hphase, (hands_free hfree).1, (hands_free hfree).2,
      List.length_append, List.length_nil]
    omega
  · simp only [countEvicted, inHand, hphase, (hands_free hfree).1, List.length_append,
      List.length_nil]
    omega

/-- `close` takes the oldest record out of the queue. -/
theorem Ledger.remove {r : T} {rest : List (QueueItem T)} {phase : ClosePhase T} (h : Ledger s)
    (hqueue : s.queue = .record r :: rest) (hfirst : ClosePhase.hand s.first = [])
    (hphase : ClosePhase.hand (some phase) = [r]) :
    Ledger { s with queue := rest, first := some phase } := by
  obtain ⟨ho, ha, hd, hf, he, hp, hu⟩ := h
  rw [hqueue] at ho ha hp hu
  simp only [inHand, hfirst, recordsOf_record, List.append_nil, List.countP_cons,
    List.length_cons] at ho ha hp hu
  refine ⟨?_, fun p => ?_, hd, hf, he, ?_, ?_⟩
  · exact (List.Sublist.append_left (List.sublist_cons_self _ _) _).trans ho
  · have := ha p
    simp only [inHand, hphase, List.countP_append, List.countP_cons, List.countP_nil]
    omega
  · simp only [inHand, hphase, List.length_append, List.length_cons, List.length_nil]
    omega
  · simp only [inHand, hphase, List.length_append, List.length_cons, List.length_nil]
    omega

/-- A step of `close` that moves no record. -/
theorem Ledger.proceed {phase : ClosePhase T} (h : Ledger s) (hfirst : ClosePhase.hand s.first = [])
    (hphase : ClosePhase.hand (some phase) = []) : Ledger { s with first := some phase } := by
  obtain ⟨ho, ha, hd, hf, he, hp, hu⟩ := h
  simp only [inHand, hfirst] at ha hp hu
  refine ⟨ho, fun p => ?_, hd, hf, he, ?_, ?_⟩
  · simp only [inHand, hphase]
    exact ha p
  · simp only [inHand, hphase]
    exact hp
  · simp only [inHand, hphase]
    exact hu

/-- The sentinel comes into the queue. -/
theorem Ledger.placed (h : Ledger s) (hput : s.putNowait .sentinel = some t) : Ledger t := by
  rw [putNowait_eq hput]
  obtain ⟨ho, ha, hd, hf, he, hp, hu⟩ := h
  refine ⟨?_, fun p => ?_, hd, hf, he, ?_, ?_⟩
  · simpa using ho
  · simpa [inHand] using ha p
  · simpa [inHand] using hp
  · simp only [inHand, List.length_append, List.length_cons, List.length_nil] at hu ⊢
    omega

/-- `join` comes back from a stopped worker, or late. -/
theorem joined_cases {timedOut : Bool} {r : ClosePhase T × Dispatcher T}
    (h : s.joined timedOut = some r) :
    r = (.returned true, s) ∧ s.worker = .stopped ∨
      r = (.returned false, { s with shutdownTimeoutCount := s.shutdownTimeoutCount + 1 }) ∧
        s.worker ≠ .stopped := by
  unfold joined at h
  cases hworker : s.worker with
  | stopped =>
    rw [hworker] at h
    exact .inl ⟨(Option.some.inj h).symm, rfl⟩
  | _ =>
    rw [hworker] at h
    simp only [Bool.false_eq_true, if_false] at h
    split at h
    · exact .inr ⟨(Option.some.inj h).symm, by simp⟩
    · cases h

/-- `close` keeps the ledger: what it removes, it drops. -/
theorem ledger_closer {timedOut : Bool} (h : Ledger s) (hc : Closing s)
    (hs : s.closerStep timedOut = some t) : Ledger t := by
  unfold closerStep at hs
  cases hfirst : s.first with
  | none => rw [hfirst] at hs; cases hs
  | some phase =>
    rw [hfirst] at hs
    have hproceed : ∀ phase' : ClosePhase T, ClosePhase.hand (some phase) = [] →
        ClosePhase.hand (some phase') = [] → Ledger { s with first := some phase' } :=
      fun phase' h₁ h₂ => h.proceed (by rw [hfirst]; exact h₁) h₂
    cases phase with
    | flushing =>
      dsimp only at hs
      split at hs
      · split at hs
        · cases hs
          exact hproceed _ rfl rfl
        · split at hs
          · cases hs
            exact hproceed _ rfl rfl
          · cases hs
      · cases hs
    | discarding =>
      have hnot := (hc.before (by rw [hfirst]; rfl)).1
      dsimp only at hs
      split at hs
      · cases hs
        exact hproceed _ rfl rfl
      · rename_i hqueue
        rw [hqueue] at hnot
        exact absurd List.mem_cons_self hnot
      · rename_i r rest hqueue
        cases hs
        exact h.remove hqueue (by rw [hfirst]; rfl) rfl
    | discarded r =>
      dsimp only at hs
      split at hs
      · rename_i hfree
        obtain ⟨s', hdone, rfl⟩ := Option.map_eq_some_iff.mp hs
        exact h.drop hfree (by rw [hfirst]; rfl) rfl hdone
      · cases hs
    | announcing =>
      dsimp only at hs
      split at hs
      · split at hs
        · cases hs
          exact hproceed _ rfl rfl
        · cases hs
          obtain ⟨ho, ha, hd, hf, he, hp, hu⟩ := hproceed .placing rfl rfl
          exact ⟨ho, ha, hd, hf, he, hp, hu⟩
      · cases hs
    | placing =>
      dsimp only at hs
      split at hs
      · rename_i s' hput
        cases hs
        have hfirst' : s'.first = some .placing := by rw [putNowait_eq hput]; exact hfirst
        exact (h.placed hput).proceed (by rw [hfirst']; rfl) rfl
      · cases hs
        exact hproceed _ rfl rfl
    | displacing =>
      have hnot := (hc.before (by rw [hfirst]; rfl)).1
      dsimp only at hs
      split at hs
      · cases hs
        exact hproceed _ rfl rfl
      · rename_i hqueue
        rw [hqueue] at hnot
        exact absurd List.mem_cons_self hnot
      · rename_i r rest hqueue
        cases hs
        exact h.remove hqueue (by rw [hfirst]; rfl) rfl
    | displaced r =>
      dsimp only at hs
      split at hs
      · rename_i hfree
        obtain ⟨s', hdone, rfl⟩ := Option.map_eq_some_iff.mp hs
        exact h.drop hfree (by rw [hfirst]; rfl) rfl hdone
      · cases hs
    | joining =>
      obtain ⟨r, hjoined, rfl⟩ := Option.map_eq_some_iff.mp hs
      rcases joined_cases hjoined with ⟨rfl, -⟩ | ⟨rfl, -⟩
      · exact hproceed (.returned true) rfl rfl
      · obtain ⟨ho, ha, hd, hf, he, hp, hu⟩ := hproceed (.returned false) rfl rfl
        exact ⟨ho, ha, hd, hf, he, hp, hu⟩
    | returned stopped => cases hs

/-- Every step keeps the ledger. -/
theorem ledger_step {e : BufferEvent T} (h : Ledger s) (hc : Closing s)
    (hs : s.step e = some t) : Ledger t := by
  cases e with
  | enter r =>
    simp only [step] at hs
    split at hs
    · rename_i hfree
      split at hs
      · cases hs
        exact h
      · cases hs
        obtain ⟨ho, ha, hd, hf, he, hp, hu⟩ := h
        simp only [inHand, (hands_free hfree).1, (hands_free hfree).2] at ha he hp hu
        exact ⟨ho, ha, hd, hf, he, hp, hu⟩
    · cases hs
  | submit => exact ledger_submit h hc hs
  | take => exact ledger_take h hs
  | handlerEnds raised => exact ledger_handlerEnds h hs
  | taskDone => exact ledger_workerDone h hs
  | settle => exact ledger_settle h hs
  | flush =>
    simp only [step] at hs
    split at hs
    · cases hs
      exact h
    · cases hs
  | close drain =>
    simp only [step, close] at hs
    split at hs
    · split at hs
      · cases hs
        obtain ⟨ho, ha, hd, hf, he, hp, hu⟩ := h
        exact ⟨ho, ha, hd, hf, he, hp, hu⟩
      · rename_i hopen
        cases hs
        have hfirst : s.first = none := by
          have := hc.closed_iff
          cases hf : s.first with
          | none => rfl
          | some phase => rw [hf] at this; exact absurd this hopen
        obtain ⟨ho, ha, hd, hf, he, hp, hu⟩ :=
          @Ledger.proceed _ _ (if drain then .flushing else .discarding) h (by rw [hfirst]; rfl)
            (by cases drain <;> rfl)
        exact ⟨ho, ha, hd, hf, he, hp, hu⟩
    · cases hs
  | closer timedOut => exact ledger_closer h hc hs
  | laterCloser i timedOut =>
    obtain ⟨ho, ha, hd, hf, he, hp, hu⟩ := h
    simp only [step, laterStep] at hs
    split at hs
    · split at hs
      · cases hs
        exact ⟨ho, ha, hd, hf, he, hp, hu⟩
      · cases hs
    · obtain ⟨r, hjoined, rfl⟩ := Option.map_eq_some_iff.mp hs
      rcases joined_cases hjoined with ⟨rfl, -⟩ | ⟨rfl, -⟩ <;>
        exact ⟨ho, ha, hd, hf, he, hp, hu⟩
    · cases hs

/-! ## The end of the worker -/

/-- A submission leaves the end alone: nothing has begun to close. -/
theorem closing_submit (h : Closing s) (hs : s.submitStep = some t) : Closing t := by
  unfold submitStep at hs
  cases hphase : s.submitting with
  | none => rw [hphase] at hs; cases hs
  | some phase =>
    obtain ⟨hopen, hnot⟩ := h.submitting hphase
    rw [hphase] at hs
    obtain ⟨hci, -, hn, hf, hb, -, hfr, hlr⟩ := h
    have hclosed : s.closed = false := by rw [hci, hopen]; rfl
    have hended : WorkerPhase.ended s.worker = false := (hb (by rw [hopen]; rfl)).2
    -- A step that keeps the queue free of the sentinel and does not put one back.
    have hkeep : ∀ u : Dispatcher T, u.closed = s.closed → u.first = s.first →
        u.sentinelEnqueued = s.sentinelEnqueued → u.worker = s.worker → u.later = s.later →
        (∀ r, u.submitting ≠ some (.putBack r)) → .sentinel ∉ u.queue → Closing u := by
      intro u h₁ h₂ h₃ h₄ h₅ h₆ h₇
      refine ⟨by rw [h₁, h₂, hci], by rw [h₁, hclosed]; exact nofun, h₆, by rw [h₃, h₂, hf],
        fun _ => ⟨h₇, by rw [h₄, hended]⟩, ?_, by rw [h₂, h₄]; exact hfr, by rw [h₅, h₄]; exact hlr⟩
      rw [h₂, hopen]
      exact nofun
    have haccept : ∀ {r : T} {s' : Dispatcher T}, s.putNowait (.record r) = some s' →
        Closing (s'.accept r) := by
      intro r s' hput
      rw [putNowait_eq hput]
      refine hkeep _ rfl rfl rfl rfl rfl (fun _ => nofun) ?_
      rw [accept, List.mem_append, List.mem_singleton]
      exact fun h => h.elim hnot nofun
    cases phase with
    | putting r =>
      dsimp only at hs
      split at hs
      · rename_i s' hput
        cases hs
        exact haccept hput
      · split at hs
        · cases hs
          exact hkeep _ rfl rfl rfl rfl rfl (fun _ => nofun) hnot
        · cases hs
          exact hkeep _ rfl rfl rfl rfl rfl (fun _ => nofun) hnot
        · cases hs
          exact hkeep _ rfl rfl rfl rfl rfl (fun _ => nofun) hnot
    | evicting r =>
      dsimp only at hs
      split at hs
      · cases hs
        exact hkeep _ rfl rfl rfl rfl rfl (fun _ => nofun) hnot
      · rename_i hqueue
        rw [hqueue] at hnot
        exact absurd List.mem_cons_self hnot
      · rename_i oldest rest hqueue
        cases hs
        rw [hqueue] at hnot
        exact hkeep _ rfl rfl rfl rfl rfl (fun _ => nofun)
          fun hm => hnot (List.mem_cons_of_mem _ hm)
    | evicted oldest r =>
      obtain ⟨s', hdone, rfl⟩ := Option.map_eq_some_iff.mp hs
      obtain ⟨rfl, -⟩ := taskDone_eq hdone
      exact hkeep _ rfl rfl rfl rfl rfl (fun _ => nofun) hnot
    | putBack r => exact absurd hphase (hn r)
    | putAgain r =>
      dsimp only at hs
      split at hs
      · rename_i s' hput
        cases hs
        exact haccept hput
      · cases hs
        exact hkeep _ rfl rfl rfl rfl rfl (fun _ => nofun) hnot
    | counting =>
      cases hs
      exact hkeep _ rfl rfl rfl rfl rfl (fun _ => nofun) hnot

/-- The worker takes the sentinel as the last item of the queue. -/
theorem closing_take (h : Closing s) (hs : s.take = some t) : Closing t := by
  unfold take at hs
  obtain ⟨hci, hq, hn, hf, hb, ha, hfr, hlr⟩ := h
  split at hs
  · rename_i r rest hworker hqueue
    cases hs
    rw [hqueue, hworker] at hb ha
    rw [hworker] at hfr hlr
    refine ⟨hci, hq, hn, hf, fun h => ⟨fun hm => (hb h).1 (List.mem_cons_of_mem _ hm), rfl⟩,
      fun h => ?_, fun h => absurd (hfr h) nofun, fun h => absurd (hlr h) nofun⟩
    rcases ha h with ⟨⟨rs, hrs⟩, -⟩ | ⟨hnil, -⟩
    · cases rs with
      | nil => cases hrs
      | cons x rs =>
        rw [List.map_cons, List.cons_append, List.cons.injEq] at hrs
        exact .inl ⟨⟨rs, hrs.2⟩, rfl⟩
    · cases hnil
  · rename_i rest hworker hqueue
    cases hs
    rw [hqueue, hworker] at hb ha
    rw [hworker] at hfr hlr
    refine ⟨hci, hq, hn, hf, fun h => absurd List.mem_cons_self (hb h).1, fun h => ?_,
      fun h => absurd (hfr h) nofun, fun h => absurd (hlr h) nofun⟩
    rcases ha h with ⟨⟨rs, hrs⟩, -⟩ | ⟨hnil, -⟩
    · cases rs with
      | nil =>
        rw [List.map_nil, List.nil_append, List.cons.injEq] at hrs
        exact .inr ⟨hrs.2, rfl⟩
      | cons x rs => cases hrs
    · cases hnil
  · cases hs

/-- The worker goes on without meeting the sentinel, or finishes after it. -/
theorem Closing.work {worker : WorkerPhase T} (h : Closing s) (hbefore : s.worker ≠ .stopped)
    (hended : WorkerPhase.ended worker = WorkerPhase.ended s.worker)
    (hclosed : t.closed = s.closed) (hfirst : t.first = s.first)
    (hsubmitting : t.submitting = s.submitting) (hflag : t.sentinelEnqueued = s.sentinelEnqueued)
    (hlater : t.later = s.later) (hqueue : t.queue = s.queue) (hworker : t.worker = worker) :
    Closing t := by
  obtain ⟨hci, hq, hn, hf, hb, ha, hfr, hlr⟩ := h
  refine ⟨?_, ?_, ?_, ?_, ?_, ?_, ?_, ?_⟩
  · rw [hclosed, hfirst, hci]
  · rw [hclosed, hsubmitting]
    exact hq
  · rw [hsubmitting]
    exact hn
  · rw [hflag, hfirst, hf]
  · rw [hfirst, hqueue, hworker, hended]
    exact hb
  · rw [hfirst, hqueue, hworker, hended]
    exact ha
  · rw [hfirst]
    exact fun h' => absurd (hfr h') hbefore
  · rw [hlater]
    exact fun h' => absurd (hlr h') hbefore

theorem closing_handlerEnds {raised : Bool} (h : Closing s)
    (hs : s.handlerEnds raised = some t) : Closing t := by
  unfold handlerEnds at hs
  split at hs
  · rename_i r hworker
    split at hs
    · cases raised with
      | true =>
        simp only [if_true, Option.some.injEq] at hs
        subst hs
        exact h.work (by rw [hworker]; exact nofun) (by rw [hworker]; rfl) rfl rfl rfl rfl rfl rfl
          rfl
      | false =>
        simp only [Bool.false_eq_true, if_false, Option.some.injEq] at hs
        subst hs
        exact h.work (by rw [hworker]; exact nofun) (by rw [hworker]; rfl) rfl rfl rfl rfl rfl rfl
          rfl
    · cases hs
  · cases hs

theorem closing_workerDone (h : Closing s) (hs : s.workerDone = some t) : Closing t := by
  unfold workerDone at hs
  split at hs
  · rename_i hworker
    obtain ⟨s', hdone, rfl⟩ := Option.map_eq_some_iff.mp hs
    obtain ⟨rfl, -⟩ := taskDone_eq hdone
    exact h.work (by rw [hworker]; exact nofun) (by rw [hworker]; rfl) rfl rfl rfl rfl rfl rfl rfl
  · rename_i hworker
    obtain ⟨s', hdone, rfl⟩ := Option.map_eq_some_iff.mp hs
    obtain ⟨rfl, -⟩ := taskDone_eq hdone
    exact h.work (by rw [hworker]; exact nofun) (by rw [hworker]; rfl) rfl rfl rfl rfl rfl rfl rfl
  · cases hs

theorem closing_settle (h : Closing s) (hs : s.settle = some t) : Closing t := by
  unfold settle at hs
  split at hs
  · rename_i hworker
    split at hs
    · cases hs
      exact h.work (by rw [hworker]; exact nofun) (by rw [hworker]; rfl) rfl rfl rfl rfl rfl rfl rfl
    · cases hs
  · cases hs

/-- `close` goes on before it has put the sentinel into the queue. -/
theorem Closing.advance {phase phase' : ClosePhase T} (h : Closing s) (hfirst : s.first = some phase)
    (hbefore : ClosePhase.placed (some phase) = false)
    (hafter : ClosePhase.placed (some phase') = false) (hclosed : t.closed = s.closed)
    (hfirst' : t.first = some phase') (hsubmitting : t.submitting = s.submitting)
    (hflag : t.sentinelEnqueued = ClosePhase.announced (some phase'))
    (hlater : t.later = s.later) (hworker : t.worker = s.worker)
    (hqueue : ∀ item ∈ t.queue, item ∈ s.queue) : Closing t := by
  obtain ⟨hci, hq, hn, hf, hb, ha, hfr, hlr⟩ := h
  rw [hfirst] at hci hb
  obtain ⟨hnot, hended⟩ := hb hbefore
  refine ⟨?_, ?_, ?_, ?_, ?_, ?_, ?_, ?_⟩
  · rw [hclosed, hfirst', hci]
    rfl
  · rw [hclosed, hsubmitting]
    exact hq
  · rw [hsubmitting]
    exact hn
  · rw [hflag, hfirst']
  · rw [hworker]
    exact fun _ => ⟨fun hm => hnot (hqueue _ hm), hended⟩
  · rw [hfirst', hafter]
    exact nofun
  · intro h'
    rw [hfirst', Option.some.injEq] at h'
    rw [h'] at hafter
    cases hafter
  · rw [hlater, hworker]
    exact hlr

/-- A queue without the sentinel holds records only. -/
theorem records_only : ∀ {queue : List (QueueItem T)}, .sentinel ∉ queue →
    ∃ rs : List T, queue = rs.map .record
  | [], _ => ⟨[], rfl⟩
  | .sentinel :: _, h => absurd List.mem_cons_self h
  | .record r :: rest, h => by
      obtain ⟨rs, rfl⟩ := records_only fun hm => h (List.mem_cons_of_mem _ hm)
      exact ⟨r :: rs, rfl⟩

/-- The sentinel goes to the end of the queue. -/
theorem Closing.put (h : Closing s) (hfirst : s.first = some .placing)
    (hput : s.putNowait .sentinel = some t) : Closing { t with first := some .joining } := by
  rw [putNowait_eq hput]
  obtain ⟨hci, hq, hn, hf, hb, ha, hfr, hlr⟩ := h
  rw [hfirst] at hci hb hf
  obtain ⟨hnot, hended⟩ := hb rfl
  obtain ⟨rs, hrs⟩ := records_only hnot
  refine ⟨hci, hq, hn, hf, nofun, fun _ => .inl ⟨⟨rs, ?_⟩, hended⟩, nofun, hlr⟩
  rw [hrs]

/-- `join` decides what `close` returns. -/
theorem Closing.join {stopped : Bool} (h : Closing s) (hfirst : s.first = some .joining)
    (hstopped : stopped = true → s.worker = .stopped) (hclosed : t.closed = s.closed)
    (hfirst' : t.first = some (.returned stopped)) (hsubmitting : t.submitting = s.submitting)
    (hflag : t.sentinelEnqueued = s.sentinelEnqueued) (hlater : t.later = s.later)
    (hqueue : t.queue = s.queue) (hworker : t.worker = s.worker) : Closing t := by
  obtain ⟨hci, hq, hn, hf, hb, ha, hfr, hlr⟩ := h
  rw [hfirst] at hci ha hf
  refine ⟨?_, ?_, ?_, ?_, ?_, ?_, ?_, ?_⟩
  · rw [hclosed, hfirst', hci]
    rfl
  · rw [hclosed, hsubmitting]
    exact hq
  · rw [hsubmitting]
    exact hn
  · rw [hflag, hfirst', hf]
    rfl
  · rw [hfirst']
    exact nofun
  · rw [hqueue, hworker]
    exact fun _ => ha rfl
  · intro h'
    rw [hfirst', Option.some.injEq, ClosePhase.returned.injEq] at h'
    rw [hworker]
    exact hstopped h'
  · rw [hlater, hworker]
    exact hlr

theorem closing_closer {timedOut : Bool} (h : Closing s) (hs : s.closerStep timedOut = some t) :
    Closing t := by
  unfold closerStep at hs
  cases hfirst : s.first with
  | none => rw [hfirst] at hs; cases hs
  | some phase =>
    rw [hfirst] at hs
    have hflag : s.sentinelEnqueued = ClosePhase.announced (some phase) := by
      rw [h.flag, hfirst]
    have hall : ∀ item ∈ s.queue, item ∈ s.queue := fun _ hm => hm
    cases phase with
    | flushing =>
      dsimp only at hs
      split at hs
      · split at hs
        · cases hs
          exact h.advance hfirst rfl rfl rfl rfl rfl hflag rfl rfl hall
        · split at hs
          · cases hs
            exact h.advance hfirst rfl rfl rfl rfl rfl hflag rfl rfl hall
          · cases hs
      · cases hs
    | discarding =>
      have hnot := (h.before (by rw [hfirst]; rfl)).1
      dsimp only at hs
      split at hs
      · cases hs
        exact h.advance hfirst rfl rfl rfl rfl rfl hflag rfl rfl hall
      · rename_i hqueue
        rw [hqueue] at hnot
        exact absurd List.mem_cons_self hnot
      · rename_i r rest hqueue
        cases hs
        exact h.advance hfirst rfl rfl rfl rfl rfl hflag rfl rfl
          fun _ hm => hqueue ▸ List.mem_cons_of_mem _ hm
    | discarded r =>
      dsimp only at hs
      split at hs
      · obtain ⟨s', hdone, rfl⟩ := Option.map_eq_some_iff.mp hs
        obtain ⟨rfl, -⟩ := taskDone_eq hdone
        exact h.advance hfirst rfl rfl rfl rfl rfl hflag rfl rfl hall
      · cases hs
    | announcing =>
      dsimp only at hs
      split at hs
      · split at hs
        · rename_i hset
          rw [hflag] at hset
          cases hset
        · cases hs
          exact h.advance hfirst rfl rfl rfl rfl rfl rfl rfl rfl hall
      · cases hs
    | placing =>
      dsimp only at hs
      split at hs
      · rename_i s' hput
        cases hs
        exact h.put hfirst hput
      · cases hs
        exact h.advance hfirst rfl rfl rfl rfl rfl hflag rfl rfl hall
    | displacing =>
      have hnot := (h.before (by rw [hfirst]; rfl)).1
      dsimp only at hs
      split at hs
      · cases hs
        exact h.advance hfirst rfl rfl rfl rfl rfl hflag rfl rfl hall
      · rename_i hqueue
        rw [hqueue] at hnot
        exact absurd List.mem_cons_self hnot
      · rename_i r rest hqueue
        cases hs
        exact h.advance hfirst rfl rfl rfl rfl rfl hflag rfl rfl
          fun _ hm => hqueue ▸ List.mem_cons_of_mem _ hm
    | displaced r =>
      dsimp only at hs
      split at hs
      · obtain ⟨s', hdone, rfl⟩ := Option.map_eq_some_iff.mp hs
        obtain ⟨rfl, -⟩ := taskDone_eq hdone
        exact h.advance hfirst rfl rfl rfl rfl rfl hflag rfl rfl hall
      · cases hs
    | joining =>
      obtain ⟨r, hjoined, rfl⟩ := Option.map_eq_some_iff.mp hs
      rcases joined_cases hjoined with ⟨rfl, hstopped⟩ | ⟨rfl, -⟩
      · exact h.join hfirst (fun _ => hstopped) rfl rfl rfl rfl rfl rfl rfl
      · exact @Closing.join _ s _ false h hfirst nofun rfl rfl rfl rfl rfl rfl rfl
    | returned stopped => cases hs

/-- Another `close` changes only where it stands itself. -/
theorem closing_later {i : ℕ} {timedOut : Bool} (h : Closing s)
    (hs : s.laterStep i timedOut = some t) : Closing t := by
  obtain ⟨hci, hq, hn, hf, hb, ha, hfr, hlr⟩ := h
  unfold laterStep at hs
  split at hs
  · split at hs
    · cases hs
      refine ⟨hci, hq, hn, hf, hb, ha, hfr, fun hm => ?_⟩
      rcases List.mem_or_eq_of_mem_set hm with hm | hm
      · exact hlr hm
      · cases hm
    · cases hs
  · obtain ⟨r, hjoined, rfl⟩ := Option.map_eq_some_iff.mp hs
    rcases joined_cases hjoined with ⟨rfl, hstopped⟩ | ⟨rfl, -⟩
    · exact ⟨hci, hq, hn, hf, hb, ha, hfr, fun _ => hstopped⟩
    · refine ⟨hci, hq, hn, hf, hb, ha, hfr, fun hm => ?_⟩
      rcases List.mem_or_eq_of_mem_set hm with hm | hm
      · exact hlr hm
      · cases hm
  · cases hs

/-- Every step keeps the order of the end. -/
theorem closing_step {e : BufferEvent T} (h : Closing s) (hs : s.step e = some t) : Closing t := by
  cases e with
  | enter r =>
    simp only [step] at hs
    split at hs
    · split at hs
      · cases hs
        exact h
      · rename_i hopen
        cases hs
        obtain ⟨hci, hq, hn, hf, hb, ha, hfr, hlr⟩ := h
        exact ⟨hci, fun hc => absurd hc hopen, fun _ => nofun, hf, hb, ha, hfr, hlr⟩
    · cases hs
  | submit => exact closing_submit h hs
  | take => exact closing_take h hs
  | handlerEnds raised => exact closing_handlerEnds h hs
  | taskDone => exact closing_workerDone h hs
  | settle => exact closing_settle h hs
  | flush =>
    simp only [step] at hs
    split at hs
    · cases hs
      exact h
    · cases hs
  | close drain =>
    simp only [step, close] at hs
    obtain ⟨hci, hq, hn, hf, hb, ha, hfr, hlr⟩ := h
    split at hs
    · rename_i hfree
      split at hs
      · cases hs
        refine ⟨hci, hq, hn, hf, hb, ha, hfr, fun hm => ?_⟩
        rcases List.mem_append.mp hm with hm | hm
        · exact hlr hm
        · cases drain <;> cases List.mem_singleton.mp hm
      · rename_i hopen
        cases hs
        have hfirst : s.first = none := by
          cases hf : s.first with
          | none => rfl
          | some phase => rw [hf] at hci; exact absurd hci hopen
        rw [hfirst] at hb hf
        have hnone : s.submitting = none := Option.isNone_iff_eq_none.mp hfree
        cases drain with
        | true => exact ⟨rfl, fun _ => hnone, hn, hf, fun _ => hb rfl, nofun, nofun, hlr⟩
        | false => exact ⟨rfl, fun _ => hnone, hn, hf, fun _ => hb rfl, nofun, nofun, hlr⟩
    · cases hs
  | closer timedOut => exact closing_closer h hs
  | laterCloser i timedOut => exact closing_later h hs

theorem ledger_new (maxPending : ℕ) (overflow : BufferOverflowPolicy) :
    (new maxPending overflow : Dispatcher T).Ledger :=
  ⟨.slnil, fun _ => rfl, rfl, rfl, rfl, rfl, rfl⟩

theorem closing_new (maxPending : ℕ) (overflow : BufferOverflowPolicy) :
    (new maxPending overflow : Dispatcher T).Closing :=
  ⟨rfl, nofun, fun _ => nofun, rfl, fun _ => ⟨List.not_mem_nil, rfl⟩, nofun, nofun, nofun⟩

/-- Both hold in every state of every run. -/
theorem reachable {maxPending : ℕ} {overflow : BufferOverflowPolicy} {es : List (BufferEvent T)}
    (hrun : Run step (new maxPending overflow) es s) : s.Ledger ∧ s.Closing :=
  hrun.invariant (fun s => s.Ledger ∧ s.Closing) (fun _ _ _ _ h hs =>
    ⟨ledger_step h.1 h.2 hs, closing_step h.2 hs⟩) ⟨ledger_new _ _, closing_new _ _⟩

/-! ## Accounting -/

/-- The worker stands between counting an outcome and giving the record up. -/
def betweenUpdates (s : Dispatcher T) : Prop := s.worker = .counted ∨ s.worker = .settling

/-- The step takes one from `pending`. -/
def Decrements (s : Dispatcher T) : BufferEvent T → Prop
  | .submit => ∃ oldest r, s.submitting = some (.evicted oldest r)
  | .settle => s.worker = .settling ∧ s.conditionFree = true
  | .closer _ => s.conditionFree = true ∧
      ∃ r, s.first = some (.discarded r) ∨ s.first = some (.displaced r)
  | _ => False

/-- Some `close` has returned true. -/
def ClosedInTime (s : Dispatcher T) : Prop :=
  s.first = some (.returned true) ∨ .returned true ∈ s.later

/-- What the buffered sink promises in every state. -/
structure Sound (s : Dispatcher T) : Prop where
  inOrder : s.handled.Sublist s.accepted
  atMost : s.delivered + s.failures + s.evicted.length + s.pending ≤ s.enqueued + 1
  atLeast : s.enqueued ≤ s.delivered + s.failures + s.evicted.length + s.pending
  exact : ¬ s.betweenUpdates →
    s.delivered + s.failures + s.evicted.length + s.pending = s.enqueued
  covered : ∀ e, s.Decrements e → 0 < s.pending
  settled : s.ClosedInTime → s.pending = 0 ∧
    s.accepted.Perm (s.deliveredRecords ++ s.failedRecords ++ s.evicted)

theorem Ledger.sum (h : Ledger s) : s.delivered + s.failures + s.evicted.length + s.pending =
    s.enqueued + s.worker.due := by
  obtain ⟨-, ha, hd, hf, he, hp, -⟩ := h
  have := ha fun _ => true
  simp only [List.countP_true] at this
  omega

theorem due_le (w : WorkerPhase T) : w.due ≤ 1 := by
  cases w <;> simp [WorkerPhase.due]

/-- In every state of every run, whatever the threads that submit, flush and close do. -/
theorem buffered_sink_sound {maxPending : ℕ} {overflow : BufferOverflowPolicy}
    {es : List (BufferEvent T)} (hrun : Run step (new maxPending overflow) es s) : s.Sound := by
  obtain ⟨hl, hc⟩ := reachable hrun
  have hsum := hl.sum
  have hdue := due_le s.worker
  refine ⟨?_, by omega, by omega, fun hnot => ?_, fun e he => ?_, fun hreturned => ?_⟩
  · exact (List.sublist_append_left _ _).trans hl.ordered
  · have hzero : s.worker.due = 0 := by
      unfold betweenUpdates at hnot
      cases hw : s.worker <;> simp [hw] at hnot <;> rfl
    omega
  · have hp := hl.pending_eq
    cases e with
    | submit =>
      obtain ⟨oldest, r, hs⟩ := he
      simp only [inHand, hs, SubmitPhase.hand, SubmitPhase.uncounted, List.length_append,
        List.length_cons] at hp
      omega
    | settle =>
      rw [he.1, (hands_free he.2).2] at hp
      simp only [WorkerPhase.due] at hp
      omega
    | closer timedOut =>
      obtain ⟨hfree, r, hf | hf⟩ := he
      all_goals
        simp only [inHand, hf, (hands_free hfree).2, ClosePhase.hand, List.length_append,
          List.length_cons] at hp
        omega
    | _ => exact he.elim
  · -- The worker has stopped, so the queue is empty and nobody holds a record.
    have hstopped : s.worker = .stopped := hreturned.elim hc.firstReturned hc.laterReturned
    have hended : WorkerPhase.ended s.worker = true := by rw [hstopped]; rfl
    have hplaced : ClosePhase.placed s.first = true := by
      cases hp : ClosePhase.placed s.first with
      | true => rfl
      | false => rw [(hc.before hp).2] at hended; cases hended
    have hqueue : s.queue = [] := by
      rcases hc.after hplaced with ⟨-, h⟩ | ⟨h, -⟩
      · rw [h] at hended
        cases hended
      · exact h
    have hclosed : s.closed = true := by
      rw [hc.closed_iff]
      cases hf : s.first with
      | none => rw [hf] at hplaced; cases hplaced
      | some phase => rfl
    have hhand : s.inHand = [] := by
      unfold inHand
      rw [hc.quiet hclosed]
      cases hf : s.first with
      | none => rfl
      | some phase => rw [hf] at hplaced; cases phase <;> first | rfl | cases hplaced
    have hp := hl.pending_eq
    rw [hstopped, hhand, hqueue, hc.quiet hclosed] at hp
    refine ⟨by simpa [WorkerPhase.current, WorkerPhase.due, SubmitPhase.uncounted] using hp, ?_⟩
    classical
    rw [List.perm_iff_count]
    intro r
    have ha := hl.accounted (· == r)
    rw [hstopped, hhand, hqueue] at ha
    simp only [WorkerPhase.current, recordsOf_nil, List.countP_nil] at ha
    simp only [List.count, List.countP_append]
    omega

end

/-- One record is delivered and the sink closed. -/
def oneRecord : List (BufferEvent ℕ) :=
  [.enter 7, .submit, .submit, .take, .handlerEnds false, .taskDone, .settle, .close true,
    .closer false, .closer false, .closer false, .take, .taskDone, .closer false]

theorem buffered_sink_sound_closed : ∃ s : Dispatcher ℕ,
    Run step (new 1 .dropOldest) oneRecord s ∧ s.ClosedInTime ∧ s.handled = [7] ∧ s.Sound := by
  have hend : (exec step (new 1 .dropOldest) oneRecord).map (fun s =>
      (decide (s.first = some (.returned true)), s.handled)) = some (true, [7]) := by
    decide
  obtain ⟨s, hs, hend⟩ := Option.map_eq_some_iff.mp hend
  rw [Prod.mk.injEq, decide_eq_true_eq] at hend
  exact ⟨s, exec_run hs, .inl hend.1, hend.2, buffered_sink_sound (exec_run hs)⟩

end Dispatcher
end Coalestra
