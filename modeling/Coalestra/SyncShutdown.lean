import Mathlib.Data.List.Basic
import Coalestra.Lib.Runs

/-! # Closing the synchronous facade

`SyncSnapshotBuilder` of `sync.py`: threads that submit, flush and close, and the thread of the
event loop. A `with` block of the condition is one step; so is each call between two of them. A
submission is the future handed out and the task behind it, which end one after the other: `cancel`
settles the future at once, and a `wait` counts it only when the task has ended and the future
knows. -/

namespace Coalestra
set_option autoImplicit false
set_option maxHeartbeats 250000

/-! ## State -/

/-- `finished` is the end that the loop passes on, be it a result, an error or a cancellation. -/
inductive FutureStatus
  | pending
  | finished
  | cancelled (byClose : Bool)
  deriving DecidableEq, Repr

/-- One accepted submission. `notified` says that the loop has passed the end of the task on to the
future, `registered` that the submitter has added the callback, `discarded` that it has run. -/
structure SubmissionTask where
  future : FutureStatus
  taskEnded : Bool
  notified : Bool
  registered : Bool
  discarded : Bool
  deriving DecidableEq, Repr

/-- `future.cancel()`, which has no effect on a future that is done. -/
def SubmissionTask.cancelled (task : SubmissionTask) (byClose : Bool) : SubmissionTask :=
  if task.future = .pending then { task with future := .cancelled byClose } else task

/-- The loop tells the future that its task has ended. -/
def SubmissionTask.told (task : SubmissionTask) : SubmissionTask :=
  { task with
    notified := true
    future := if task.future = .pending then .finished else task.future }

/-- How the close of the builder ended: the errors after which its workers still run, another
error, or the timeout of the call. -/
inductive BuilderClose
  | closed
  | workersRun
  | failed
  deriving DecidableEq, Repr

inductive SyncCloseError
  | builder (ended : BuilderClose)
  | threadAlive
  deriving DecidableEq, Repr

/-- Where `close` stands. `finalizing` and `joining` carry the end of the builder's close. -/
inductive SyncClosePoint
  | entering
  | draining (captured : List ℕ)
  | cancelling (rest remaining : List ℕ)
  | awaiting (remaining : List ℕ)
  | shutting
  | finalizing (ended : BuilderClose)
  | joining (ended : BuilderClose)
  | skipped
  | returned
  | raised (error : SyncCloseError)
  deriving DecidableEq, Repr

/-- One `close`, and whether its first wait ran out of time. -/
structure SyncClose where
  point : SyncClosePoint
  timedOut : Bool
  deriving DecidableEq, Repr

/-- Where `flush_submissions` stands; `seen` is how many submissions had been accepted when it took
the pending ones. -/
inductive SyncFlush
  | entered
  | waiting (captured : List ℕ) (seen : ℕ)
  | refused
  | timedOut
  | returned (seen : ℕ)
  deriving DecidableEq, Repr

inductive LoopStatus
  | running
  | stopRequested
  | closed
  deriving DecidableEq, Repr

/-- The facade. `closer` holds the close lock; `scheduled` counts the blocking calls that were let
through and `shutdowns` how often the builder was closed, or waited for where it stays open. -/
structure SyncShutdown where
  maxPendingSubmissions : ℕ
  closeBuilder : Bool
  closed : Bool
  closing : Bool
  acceptingSubmissions : Bool
  submissions : List SubmissionTask
  pending : List ℕ
  scheduled : ℕ
  closer : Option ℕ
  closes : List SyncClose
  flushes : List SyncFlush
  shutdowns : ℕ
  stopDeferred : Bool
  loop : LoopStatus
  deriving DecidableEq, Repr

inductive SyncLabel
  | submit
  | schedule
  | register (i : ℕ)
  | cancel (i : ℕ)
  | taskEnds (i : ℕ)
  | notify (i : ℕ)
  | discard (i : ℕ)
  | callClose
  | close (c : ℕ) (timedOut : Bool)
  | closeCancels (c i : ℕ)
  | builderEnds (c : ℕ) (ended : BuilderClose)
  | callFlush
  | flush (f : ℕ) (timedOut : Bool)
  | workersEnd
  | loopCloses
  deriving DecidableEq, Repr

namespace SyncShutdown

def new (maxPendingSubmissions : ℕ) (closeBuilder : Bool) : SyncShutdown :=
  ⟨maxPendingSubmissions, closeBuilder, false, false, true, [], [], 0, none, [], [], 0, false,
    .running⟩

/-- `_ensure_open` lets the caller through. -/
def isOpen (s : SyncShutdown) : Bool := !(s.closed || s.closing)

/-- The future counts as done for `concurrent.futures.wait`. -/
def waited (s : SyncShutdown) (i : ℕ) : Bool := (s.submissions[i]?).any SubmissionTask.notified

def setSubmission (s : SyncShutdown) (i : ℕ) (task : SubmissionTask) : SyncShutdown :=
  { s with submissions := s.submissions.set i task }

def setClose (s : SyncShutdown) (c : ℕ) (call : SyncClose) : SyncShutdown :=
  { s with closes := s.closes.set c call }

def setFlush (s : SyncShutdown) (f : ℕ) (flush : SyncFlush) : SyncShutdown :=
  { s with flushes := s.flushes.set f flush }

/-! ## Steps -/

/-- `_schedule_submission` up to the end of its critical section; a refused one changes nothing. -/
def submit (s : SyncShutdown) : SyncShutdown :=
  if s.isOpen && s.acceptingSubmissions && decide (s.pending.length < s.maxPendingSubmissions) then
    { s with
      submissions := s.submissions ++ [⟨.pending, false, false, false, false⟩]
      pending := s.pending ++ [s.submissions.length] }
  else s

/-- The next step of the task or the callback of a submission. -/
def submissionStep (s : SyncShutdown) (i : ℕ) (task : SubmissionTask) :
    SyncLabel → Option SyncShutdown
  | .register _ =>
    if task.registered then none else some (s.setSubmission i { task with registered := true })
  | .cancel _ => some (s.setSubmission i (task.cancelled false))
  | .taskEnds _ =>
    if task.taskEnded || decide (s.loop = .closed) then none
    else some (s.setSubmission i { task with taskEnded := true })
  | .notify _ =>
    if task.taskEnded && !task.notified && decide (s.loop ≠ .closed) then
      some (s.setSubmission i task.told)
    else none
  | .discard _ =>
    -- `_submission_completed`
    if task.registered && !task.discarded && decide (task.future ≠ .pending) then
      some { s.setSubmission i { task with discarded := true } with pending := s.pending.erase i }
    else none
  | _ => none

/-- The next step of `close`, apart from the end of the builder's close. -/
def closeStep (s : SyncShutdown) (c : ℕ) (call : SyncClose) (timedOut : Bool) :
    Option SyncShutdown :=
  match call.point with
  | .entering =>
    if s.closer.isSome then none
    else if s.closed then some (s.setClose c { call with point := .skipped })
    else some { s.setClose c { call with point := .draining s.pending } with
      closer := some c
      closing := true
      acceptingSubmissions := false }
  | .draining captured =>
    if captured.all s.waited then
      some { s.setClose c { call with point := .shutting } with shutdowns := s.shutdowns + 1 }
    else if timedOut then
      let remaining := captured.filter fun i => !s.waited i
      some (s.setClose c ⟨.cancelling remaining remaining, true⟩)
    else none
  | .cancelling [] remaining => some (s.setClose c { call with point := .awaiting remaining })
  | .awaiting remaining =>
    if remaining.all s.waited || timedOut then
      some { s.setClose c { call with point := .shutting } with shutdowns := s.shutdowns + 1 }
    else none
  | .finalizing ended =>
    if s.closeBuilder && decide (ended = .workersRun) then
      some { s.setClose c { call with point := .raised (.builder ended) } with
        closed := true
        closing := false
        closer := none }
    else
      some { s.setClose c { call with point := .joining ended } with
        closed := true
        closing := false
        loop := if s.loop = .running then .stopRequested else s.loop }
  | .joining ended =>
    if s.loop = .closed then
      some { s.setClose c { call with
        point := if ended = .closed then .returned else .raised (.builder ended) } with
        closer := none }
    else if timedOut then
      some { s.setClose c { call with point := .raised .threadAlive } with closer := none }
    else none
  | _ => none

/-- `close` cancels what its first wait left over; a set comes in no order. -/
def cancelStep (s : SyncShutdown) (c i : ℕ) (call : SyncClose) : Option SyncShutdown :=
  match call.point with
  | .cancelling rest remaining =>
    if i ∈ rest then
      (s.submissions[i]?).map fun task =>
        (s.setSubmission i (task.cancelled true)).setClose c
          { call with point := .cancelling (rest.erase i) remaining }
    else none
  | _ => none

/-- The next step of `flush_submissions`. -/
def flushStep (s : SyncShutdown) (f : ℕ) (timedOut : Bool) : SyncFlush → Option SyncShutdown
  | .entered => some (s.setFlush f (.waiting s.pending s.submissions.length))
  | .waiting captured seen =>
    if captured.all s.waited then some (s.setFlush f (.returned seen))
    else if timedOut then some (s.setFlush f .timedOut)
    else none
  | _ => none

def step (s : SyncShutdown) (l : SyncLabel) : Option SyncShutdown :=
  match l with
  | .submit => some s.submit
  | .schedule => some (if s.isOpen then { s with scheduled := s.scheduled + 1 } else s)
  | .register i | .cancel i | .taskEnds i | .notify i | .discard i =>
    (s.submissions[i]?).bind fun task => s.submissionStep i task l
  | .callClose => some { s with closes := s.closes ++ [⟨.entering, false⟩] }
  | .close c timedOut => (s.closes[c]?).bind fun call => s.closeStep c call timedOut
  | .closeCancels c i => (s.closes[c]?).bind fun call => s.cancelStep c i call
  | .builderEnds c ended =>
    match s.closes[c]? with
    | some call =>
      match call.point with
      | .shutting => some { s.setClose c { call with point := .finalizing ended } with
          -- A coroutine stops the loop behind workers that still run.
          stopDeferred := s.stopDeferred || (s.closeBuilder && decide (ended = .workersRun)) }
      | _ => none
    | none => none
  | .callFlush =>
    some { s with flushes := s.flushes ++ [if s.isOpen then .entered else .refused] }
  | .flush f timedOut => (s.flushes[f]?).bind fun flush => s.flushStep f timedOut flush
  | .workersEnd =>
    if s.stopDeferred && decide (s.loop = .running) then some { s with loop := .stopRequested }
    else none
  | .loopCloses =>
    -- `_run_loop` ends: every task that is left has been cancelled and awaited.
    if s.loop = .stopRequested ∧ s.submissions.all SubmissionTask.taskEnded = true then
      some { s with loop := .closed }
    else none

/-! ## What never goes back -/

/-- The future of submission `i` is open. -/
def Undone (s : SyncShutdown) (i : ℕ) : Prop :=
  ∃ task, s.submissions[i]? = some task ∧ task.future = .pending

/-- It has a result, an exception or a cancellation. -/
def Done (s : SyncShutdown) (i : ℕ) : Prop :=
  ∃ task, s.submissions[i]? = some task ∧ task.future ≠ .pending

/-- What a later state keeps: a facade that is not open accepts nothing. -/
structure Follows (s t : SyncShutdown) : Prop where
  shut : s.isOpen = false → t.isOpen = false ∧ t.submissions.length = s.submissions.length ∧
    t.scheduled = s.scheduled ∧ ∀ i, t.Undone i → s.Undone i
  closed : s.closed = true → t.closed = true
  loop : s.loop = .closed → t.loop = .closed
  done : ∀ i, s.Done i → t.Done i
  length : s.submissions.length ≤ t.submissions.length

section
variable {s t u : SyncShutdown}

theorem Follows.refl (s : SyncShutdown) : Follows s s :=
  ⟨fun h => ⟨h, rfl, rfl, fun _ hi => hi⟩, id, id, fun _ hi => hi, Nat.le_refl _⟩

theorem Follows.trans (h : Follows s t) (h' : Follows t u) : Follows s u := by
  refine ⟨?_, fun hs => h'.closed (h.closed hs), fun hs => h'.loop (h.loop hs),
    fun i hi => h'.done i (h.done i hi), Nat.le_trans h.length h'.length⟩
  intro hs
  obtain ⟨ht, hlength, hscheduled, hundone⟩ := h.shut hs
  obtain ⟨hu, hlength', hscheduled', hundone'⟩ := h'.shut ht
  exact ⟨hu, hlength'.trans hlength, hscheduled'.trans hscheduled,
    fun i hi => hundone i (hundone' i hi)⟩

theorem isOpen_eq_false : s.isOpen = false ↔ s.closed = true ∨ s.closing = true := by
  rw [isOpen, Bool.not_eq_false', Bool.or_eq_true]

/-- A step that leaves the submissions alone. -/
theorem Follows.of_same (hsubmissions : t.submissions = s.submissions)
    (hscheduled : t.scheduled = s.scheduled) (hshut : s.isOpen = false → t.isOpen = false)
    (hclosed : s.closed = true → t.closed = true) (hloop : s.loop = .closed → t.loop = .closed) :
    Follows s t := by
  refine ⟨fun hs => ⟨hshut hs, by rw [hsubmissions], hscheduled, ?_⟩, hclosed, hloop, ?_,
    Nat.le_of_eq (by rw [hsubmissions])⟩
  · intro i hi
    rw [Undone, hsubmissions] at hi
    exact hi
  · intro i hi
    rw [Done, hsubmissions]
    exact hi

theorem getElem?_set_cases {α : Type} {l : List α} {i j : ℕ} {b c : α}
    (h : (l.set i b)[j]? = some c) : j = i ∧ c = b ∨ j ≠ i ∧ l[j]? = some c := by
  rw [List.getElem?_set] at h
  split at h
  · rename_i hij
    split at h
    · exact .inl ⟨hij.symm, (Option.some.inj h).symm⟩
    · cases h
  · rename_i hij
    exact .inr ⟨fun e => hij e.symm, h⟩

theorem getElem?_concat_cases {α : Type} {l : List α} {i : ℕ} {a b : α}
    (h : (l ++ [a])[i]? = some b) : l[i]? = some b ∨ i = l.length ∧ b = a := by
  rw [List.getElem?_append] at h
  split at h
  · exact .inl h
  · rename_i hlength
    rw [List.getElem?_singleton] at h
    split at h
    · exact .inr ⟨by omega, (Option.some.inj h).symm⟩
    · cases h

theorem getElem?_set_same {α : Type} {l : List α} {i : ℕ} {a : α} (b : α) (hi : l[i]? = some a) :
    (l.set i b)[i]? = some b := by
  rw [List.getElem?_set_self (List.getElem?_eq_some_iff.mp hi).1]

/-- A step of one submission: its future settles at most once. -/
theorem Follows.of_set {i : ℕ} {task task' : SubmissionTask} (hi : s.submissions[i]? = some task)
    (hsubmissions : t.submissions = s.submissions.set i task')
    (hfuture : task.future ≠ .pending → task'.future = task.future)
    (hscheduled : t.scheduled = s.scheduled) (hopen : t.isOpen = s.isOpen)
    (hclosed : t.closed = s.closed) (hloop : t.loop = s.loop) : Follows s t := by
  refine ⟨fun hs => ⟨by rw [hopen, hs], by rw [hsubmissions, List.length_set], hscheduled, ?_⟩,
    fun hs => by rw [hclosed, hs], fun hs => by rw [hloop, hs], ?_,
    Nat.le_of_eq (by rw [hsubmissions, List.length_set])⟩
  · intro j hj
    obtain ⟨task'', hj, hpending⟩ := hj
    rw [hsubmissions] at hj
    rcases getElem?_set_cases hj with ⟨rfl, rfl⟩ | ⟨-, hj⟩
    · refine ⟨task, hi, ?_⟩
      by_contra hne
      exact hne ((hfuture hne).symm.trans hpending)
    · exact ⟨task'', hj, hpending⟩
  · intro j hj
    obtain ⟨task'', hj, hdone⟩ := hj
    by_cases hij : j = i
    · subst hij
      rw [hi, Option.some.injEq] at hj
      subst hj
      refine ⟨task', by rw [hsubmissions]; exact getElem?_set_same _ hi, ?_⟩
      rw [hfuture hdone]
      exact hdone
    · refine ⟨task'', ?_, hdone⟩
      rw [hsubmissions, List.getElem?_set_ne (fun e => hij e.symm)]
      exact hj

theorem cancelled_future {task : SubmissionTask} {byClose : Bool} (h : task.future ≠ .pending) :
    task.cancelled byClose = task := if_neg h

theorem told_future {task : SubmissionTask} (h : task.future ≠ .pending) :
    task.told.future = task.future := if_neg h

/-- The ways in which one submission moves. -/
inductive TaskMove (s t : SyncShutdown) (i : ℕ) (task : SubmissionTask) : Prop
  | registers (h : t = s.setSubmission i { task with registered := true })
  | cancels (h : t = s.setSubmission i (task.cancelled false))
  | ends (h : t = s.setSubmission i { task with taskEnded := true })
  | tells (ended : task.taskEnded = true) (h : t = s.setSubmission i task.told)
  | discards (done : task.future ≠ .pending)
      (h : t = { s.setSubmission i { task with discarded := true } with
        pending := s.pending.erase i })

theorem submissionStep_cases {i : ℕ} {task : SubmissionTask} {l : SyncLabel}
    (h : s.submissionStep i task l = some t) : TaskMove s t i task := by
  unfold submissionStep at h
  split at h
  · split at h
    · cases h
    · exact .registers (Option.some.inj h).symm
  · exact .cancels (Option.some.inj h).symm
  · split at h
    · cases h
    · exact .ends (Option.some.inj h).symm
  · split at h
    · rename_i hnotify
      rw [Bool.and_eq_true, Bool.and_eq_true] at hnotify
      exact .tells hnotify.1.1 (Option.some.inj h).symm
    · cases h
  · split at h
    · rename_i hdiscard
      rw [Bool.and_eq_true, decide_eq_true_eq] at hdiscard
      exact .discards hdiscard.2 (Option.some.inj h).symm
    · cases h
  · cases h

/-- A submission moves without the calls and the loop. -/
theorem TaskMove.rest {i : ℕ} {task : SubmissionTask} (h : TaskMove s t i task) :
    ∃ submissions pending, t = { s with submissions := submissions, pending := pending } := by
  cases h with
  | registers h | cancels h | ends h | tells _ h | discards _ h => exact ⟨_, _, h⟩

theorem TaskMove.follows {i : ℕ} {task : SubmissionTask} (h : TaskMove s t i task)
    (hi : s.submissions[i]? = some task) : Follows s t := by
  cases h with
  | registers h | ends h => rw [h]; exact .of_set hi rfl (fun _ => rfl) rfl rfl rfl rfl
  | cancels h =>
    rw [h]
    exact .of_set hi rfl (fun hne => by rw [cancelled_future hne]) rfl rfl rfl rfl
  | tells _ h => rw [h]; exact .of_set hi rfl told_future rfl rfl rfl rfl
  | discards _ h => rw [h]; exact .of_set hi rfl (fun _ => rfl) rfl rfl rfl rfl

/-! ## Calls of `close` -/

/-- The ways in which one `close` moves. -/
inductive CloseMove (s t : SyncShutdown) (c : ℕ) (call : SyncClose) : Prop
  | skips (point : call.point = .entering) (closed : s.closed = true)
      (h : t = s.setClose c { call with point := .skipped })
  | begins (point : call.point = .entering) (free : s.closer = none) (closed : s.closed = false)
      (h : t = { s.setClose c { call with point := .draining s.pending } with
        closer := some c
        closing := true
        acceptingSubmissions := false })
  | drained (captured : List ℕ) (point : call.point = .draining captured)
      (waited : captured.all s.waited = true)
      (h : t = { s.setClose c { call with point := .shutting } with shutdowns := s.shutdowns + 1 })
  | expires (captured : List ℕ) (point : call.point = .draining captured)
      (h : t = s.setClose c ⟨.cancelling (captured.filter fun i => !s.waited i)
        (captured.filter fun i => !s.waited i), true⟩)
  | cancelled (remaining : List ℕ) (point : call.point = .cancelling [] remaining)
      (h : t = s.setClose c { call with point := .awaiting remaining })
  | cancels (i : ℕ) (rest remaining : List ℕ) (task : SubmissionTask)
      (point : call.point = .cancelling rest remaining)
      (submission : s.submissions[i]? = some task)
      (h : t = (s.setSubmission i (task.cancelled true)).setClose c
        { call with point := .cancelling (rest.erase i) remaining })
  | awaited (remaining : List ℕ) (point : call.point = .awaiting remaining)
      (h : t = { s.setClose c { call with point := .shutting } with shutdowns := s.shutdowns + 1 })
  | leaves (ended : BuilderClose) (point : call.point = .finalizing ended)
      (h : t = { s.setClose c { call with point := .raised (.builder ended) } with
        closed := true
        closing := false
        closer := none })
  | stops (ended : BuilderClose) (point : call.point = .finalizing ended)
      (h : t = { s.setClose c { call with point := .joining ended } with
        closed := true
        closing := false
        loop := if s.loop = .running then .stopRequested else s.loop })
  | joins (ended : BuilderClose) (point : call.point = .joining ended) (loop : s.loop = .closed)
      (h : t = { s.setClose c { call with
        point := if ended = .closed then .returned else .raised (.builder ended) } with
        closer := none })
  | gives (ended : BuilderClose) (point : call.point = .joining ended)
      (h : t = { s.setClose c { call with point := .raised .threadAlive } with closer := none })

theorem closeStep_cases {c : ℕ} {call : SyncClose} {timedOut : Bool}
    (h : s.closeStep c call timedOut = some t) : CloseMove s t c call := by
  unfold closeStep at h
  split at h
  · rename_i hpoint
    split at h
    · cases h
    · rename_i hfree
      split at h
      · rename_i hclosed
        exact .skips hpoint hclosed (Option.some.inj h).symm
      · rename_i hclosed
        exact .begins hpoint (Option.not_isSome_iff_eq_none.mp hfree)
          (Bool.eq_false_iff.mpr hclosed) (Option.some.inj h).symm
  · rename_i captured hpoint
    split at h
    · rename_i hall
      exact .drained captured hpoint hall (Option.some.inj h).symm
    · split at h
      · exact .expires captured hpoint (Option.some.inj h).symm
      · cases h
  · rename_i remaining hpoint
    exact .cancelled remaining hpoint (Option.some.inj h).symm
  · rename_i remaining hpoint
    split at h
    · exact .awaited remaining hpoint (Option.some.inj h).symm
    · cases h
  · rename_i ended hpoint
    split at h
    · exact .leaves ended hpoint (Option.some.inj h).symm
    · exact .stops ended hpoint (Option.some.inj h).symm
  · rename_i ended hpoint
    split at h
    · rename_i hloop
      exact .joins ended hpoint hloop (Option.some.inj h).symm
    · split at h
      · exact .gives ended hpoint (Option.some.inj h).symm
      · cases h
  · cases h

theorem cancelStep_cases {c i : ℕ} {call : SyncClose} (h : s.cancelStep c i call = some t) :
    CloseMove s t c call := by
  unfold cancelStep at h
  split at h
  · rename_i rest remaining hpoint
    split at h
    · obtain ⟨task, htask, ht⟩ := Option.map_eq_some_iff.mp h
      exact .cancels i rest remaining task hpoint htask ht.symm
    · cases h
  · cases h

/-- A `close` moves without the flushes. -/
theorem CloseMove.rest {c : ℕ} {call : SyncClose} (h : CloseMove s t c call) :
    t.flushes = s.flushes ∧ t.maxPendingSubmissions = s.maxPendingSubmissions := by
  cases h with
  | skips _ _ h | begins _ _ _ h | drained _ _ _ h | expires _ _ h | cancelled _ _ h
  | cancels _ _ _ _ _ _ h | awaited _ _ h | leaves _ _ h | stops _ _ h | joins _ _ _ h
  | gives _ _ h =>
    subst h
    exact ⟨rfl, rfl⟩

theorem CloseMove.follows {c : ℕ} {call : SyncClose} (h : CloseMove s t c call) : Follows s t := by
  cases h with
  | skips _ _ h => rw [h]; exact .of_same rfl rfl id id id
  | begins _ _ hclosed h =>
    rw [h]
    exact .of_same rfl rfl (fun _ => isOpen_eq_false.mpr (.inr rfl)) id id
  | drained _ _ _ h => rw [h]; exact .of_same rfl rfl id id id
  | expires _ _ h => rw [h]; exact .of_same rfl rfl id id id
  | cancelled _ _ h => rw [h]; exact .of_same rfl rfl id id id
  | cancels i _ _ task _ hi h =>
    rw [h]
    exact .of_set hi rfl (fun hne => by rw [cancelled_future hne]) rfl rfl rfl rfl
  | awaited _ _ h => rw [h]; exact .of_same rfl rfl id id id
  | leaves _ _ h =>
    rw [h]
    exact .of_same rfl rfl (fun _ => isOpen_eq_false.mpr (.inl rfl)) (fun _ => rfl) id
  | stops _ _ h =>
    rw [h]
    refine .of_same rfl rfl (fun _ => isOpen_eq_false.mpr (.inl rfl)) (fun _ => rfl) ?_
    intro hloop
    rw [if_neg (by rw [hloop]; decide)]
    exact hloop
  | joins _ _ _ h => rw [h]; exact .of_same rfl rfl id id id
  | gives _ _ h => rw [h]; exact .of_same rfl rfl id id id

/-! ## Steps of the facade -/

/-- What a step does: one of the parties moves, or the environment does. -/
inductive SyncMove (s t : SyncShutdown) : SyncLabel → Prop
  | refuses (h : t = s) : SyncMove s t .submit
  | accepts (free : s.isOpen = true) (room : s.pending.length < s.maxPendingSubmissions)
      (h : t = { s with
        submissions := s.submissions ++ [⟨.pending, false, false, false, false⟩]
        pending := s.pending ++ [s.submissions.length] }) : SyncMove s t .submit
  | schedules (h : s.isOpen = true ∧ t = { s with scheduled := s.scheduled + 1 } ∨ t = s) :
      SyncMove s t .schedule
  | submission (l : SyncLabel) (i : ℕ) (task : SubmissionTask)
      (found : s.submissions[i]? = some task) (move : TaskMove s t i task) : SyncMove s t l
  | callsClose (h : t = { s with closes := s.closes ++ [⟨.entering, false⟩] }) :
      SyncMove s t .callClose
  | closes (l : SyncLabel) (c : ℕ) (call : SyncClose) (found : s.closes[c]? = some call)
      (move : CloseMove s t c call) : SyncMove s t l
  | ends (c : ℕ) (ended : BuilderClose) (call : SyncClose) (found : s.closes[c]? = some call)
      (point : call.point = .shutting)
      (h : t = { s.setClose c { call with point := .finalizing ended } with
        stopDeferred := s.stopDeferred || (s.closeBuilder && decide (ended = .workersRun)) }) :
      SyncMove s t (.builderEnds c ended)
  | callsFlush (flush : SyncFlush) (new : flush = .entered ∨ flush = .refused)
      (h : t = { s with flushes := s.flushes ++ [flush] }) : SyncMove s t .callFlush
  | captures (f : ℕ) (timedOut : Bool) (found : s.flushes[f]? = some .entered)
      (h : t = s.setFlush f (.waiting s.pending s.submissions.length)) :
      SyncMove s t (.flush f timedOut)
  | flushes (f : ℕ) (timedOut : Bool) (captured : List ℕ) (seen : ℕ)
      (found : s.flushes[f]? = some (.waiting captured seen))
      (h : captured.all s.waited = true ∧ t = s.setFlush f (.returned seen) ∨
        t = s.setFlush f .timedOut) : SyncMove s t (.flush f timedOut)
  | requests (deferred : s.stopDeferred = true) (running : s.loop = .running)
      (h : t = { s with loop := .stopRequested }) : SyncMove s t .workersEnd
  | closesLoop (requested : s.loop = .stopRequested)
      (ended : s.submissions.all SubmissionTask.taskEnded = true)
      (h : t = { s with loop := .closed }) : SyncMove s t .loopCloses

theorem step_cases {l : SyncLabel} (h : s.step l = some t) : SyncMove s t l := by
  cases l with
  | submit =>
    simp only [step, Option.some.injEq] at h
    rw [← h]
    unfold submit
    split
    · rename_i hroom
      rw [Bool.and_eq_true, Bool.and_eq_true, decide_eq_true_eq] at hroom
      exact .accepts hroom.1.1 hroom.2 rfl
    · exact .refuses rfl
  | schedule =>
    simp only [step, Option.some.injEq] at h
    refine .schedules ?_
    rw [← h]
    split
    · rename_i hopen
      exact .inl ⟨hopen, rfl⟩
    · exact .inr rfl
  | register i | cancel i | taskEnds i | notify i | discard i =>
    obtain ⟨task, htask, hmove⟩ := Option.bind_eq_some_iff.mp h
    exact .submission _ i task htask (submissionStep_cases hmove)
  | callClose =>
    cases h
    exact .callsClose rfl
  | close c timedOut =>
    obtain ⟨call, hcall, hmove⟩ := Option.bind_eq_some_iff.mp h
    exact .closes _ c call hcall (closeStep_cases hmove)
  | closeCancels c i =>
    obtain ⟨call, hcall, hmove⟩ := Option.bind_eq_some_iff.mp h
    exact .closes _ c call hcall (cancelStep_cases hmove)
  | builderEnds c ended =>
    simp only [step] at h
    split at h
    · rename_i call hcall
      split at h
      · rename_i hpoint
        exact .ends c ended call hcall hpoint (Option.some.inj h).symm
      · cases h
    · cases h
  | callFlush =>
    simp only [step, Option.some.injEq] at h
    refine .callsFlush _ ?_ h.symm
    split
    · exact .inl rfl
    · exact .inr rfl
  | flush f timedOut =>
    obtain ⟨flush, hflush, hmove⟩ := Option.bind_eq_some_iff.mp h
    unfold flushStep at hmove
    split at hmove
    · exact .captures f timedOut hflush (Option.some.inj hmove).symm
    · rename_i captured seen
      split at hmove
      · rename_i hall
        exact .flushes f timedOut captured seen hflush (.inl ⟨hall, (Option.some.inj hmove).symm⟩)
      · split at hmove
        · exact .flushes f timedOut captured seen hflush (.inr (Option.some.inj hmove).symm)
        · cases hmove
    · cases hmove
  | workersEnd =>
    simp only [step] at h
    split at h
    · rename_i hdeferred
      rw [Bool.and_eq_true, decide_eq_true_eq] at hdeferred
      exact .requests hdeferred.1 hdeferred.2 (Option.some.inj h).symm
    · cases h
  | loopCloses =>
    simp only [step] at h
    split at h
    · rename_i hloop
      exact .closesLoop hloop.1 hloop.2 (Option.some.inj h).symm
    · cases h

theorem follows_step {l : SyncLabel} (hs : s.step l = some t) : Follows s t := by
  cases step_cases hs with
  | refuses h => rw [h]; exact .refl s
  | accepts hopen _ h =>
    have hshut : ¬ s.isOpen = false := by rw [hopen]; decide
    refine ⟨fun hs => absurd hs hshut, ?_, ?_, ?_, ?_⟩
    · rw [h]; exact id
    · rw [h]; exact id
    · rintro i ⟨task, hi, hdone⟩
      refine ⟨task, ?_, hdone⟩
      rw [h]
      exact List.getElem?_append_left (List.getElem?_eq_some_iff.mp hi).1 |>.trans hi
    · rw [h]
      simp
  | schedules h =>
    rcases h with ⟨hopen, h⟩ | h
    · have hshut : ¬ s.isOpen = false := by rw [hopen]; decide
      rw [h]
      exact ⟨fun hs => absurd hs hshut, id, id, fun _ hi => hi, Nat.le_refl _⟩
    · rw [h]; exact .refl s
  | submission _ i task hi hmove => exact hmove.follows hi
  | callsClose h => rw [h]; exact .of_same rfl rfl id id id
  | closes _ c call _ hmove => exact hmove.follows
  | ends c ended call _ _ h => rw [h]; exact .of_same rfl rfl id id id
  | callsFlush flush _ h => rw [h]; exact .of_same rfl rfl id id id
  | captures f _ _ h => rw [h]; exact .of_same rfl rfl id id id
  | flushes f _ captured seen _ h =>
    rcases h with ⟨-, h⟩ | h <;> rw [h] <;> exact .of_same rfl rfl id id id
  | requests _ hrunning h =>
    rw [h]
    refine .of_same rfl rfl id id ?_
    intro hclosed
    rw [hrunning] at hclosed
    cases hclosed
  | closesLoop _ _ h => rw [h]; exact .of_same rfl rfl id id fun _ => rfl

/-! ## The backlog -/

/-- The callback runs on a future that is done, and the future hears of the end of its task last. -/
structure TaskSound (task : SubmissionTask) : Prop where
  discarded : task.discarded = true → task.future ≠ .pending
  finished : task.future = .finished → task.notified = true
  notified : task.notified = true → task.taskEnded = true ∧ task.future ≠ .pending

/-- Every submission is in the backlog until its callback has run. -/
structure Tracked (s : SyncShutdown) : Prop where
  tasks : ∀ (i : ℕ) task, s.submissions[i]? = some task → TaskSound task
  pending : ∀ (i : ℕ) task, s.submissions[i]? = some task → task.discarded = false → i ∈ s.pending
  bounded : s.pending.length ≤ s.maxPendingSubmissions

theorem Tracked.of_same (h : Tracked s) (hsubmissions : t.submissions = s.submissions)
    (hpending : t.pending = s.pending)
    (hmax : t.maxPendingSubmissions = s.maxPendingSubmissions) : Tracked t := by
  obtain ⟨htasks, htracked, hbounded⟩ := h
  rw [← hsubmissions] at htasks htracked
  rw [← hpending] at htracked hbounded
  rw [← hmax] at hbounded
  exact ⟨htasks, htracked, hbounded⟩

theorem Tracked.of_set (h : Tracked s) {i : ℕ} {task task' : SubmissionTask}
    (hi : s.submissions[i]? = some task) (hsound : TaskSound task')
    (hsubmissions : t.submissions = s.submissions.set i task')
    (hpending : t.pending = s.pending ∧ task'.discarded = task.discarded ∨
      t.pending = s.pending.erase i ∧ task'.discarded = true)
    (hmax : t.maxPendingSubmissions = s.maxPendingSubmissions) : Tracked t := by
  refine ⟨?_, ?_, ?_⟩
  · intro j task'' hj
    rw [hsubmissions] at hj
    rcases getElem?_set_cases hj with ⟨-, rfl⟩ | ⟨-, hj⟩
    · exact hsound
    · exact h.tasks j task'' hj
  · intro j task'' hj hdiscarded
    rw [hsubmissions] at hj
    rcases getElem?_set_cases hj with ⟨rfl, rfl⟩ | ⟨hne, hj⟩
    · rcases hpending with ⟨hpending, hsame⟩ | ⟨-, hgone⟩
      · rw [hpending]
        exact h.pending j task hi (hsame.symm.trans hdiscarded)
      · rw [hgone] at hdiscarded
        cases hdiscarded
    · have hmem := h.pending j task'' hj hdiscarded
      rcases hpending with ⟨hpending, -⟩ | ⟨hpending, -⟩
      · rw [hpending]
        exact hmem
      · rw [hpending]
        exact (List.mem_erase_of_ne hne).mpr hmem
  · rw [hmax]
    rcases hpending with ⟨hpending, -⟩ | ⟨hpending, -⟩
    · rw [hpending]
      exact h.bounded
    · rw [hpending]
      exact Nat.le_trans (List.length_erase_le) h.bounded

theorem TaskSound.cancelled {task : SubmissionTask} (h : TaskSound task) (byClose : Bool) :
    TaskSound (task.cancelled byClose) ∧ (task.cancelled byClose).discarded = task.discarded := by
  unfold SubmissionTask.cancelled
  split
  · rename_i hpending
    refine ⟨⟨fun _ => by simp, fun hfinished => by simp at hfinished, fun hnotified => ?_⟩, rfl⟩
    exact absurd hpending (h.notified hnotified).2
  · exact ⟨h, rfl⟩

theorem told_sound {task : SubmissionTask} (hended : task.taskEnded = true) :
    TaskSound task.told := by
  have hdone : task.told.future ≠ .pending := by
    unfold SubmissionTask.told
    simp only
    split
    · simp
    · assumption
  exact ⟨fun _ => hdone, fun _ => rfl, fun _ => ⟨hended, hdone⟩⟩

theorem tracked_submission {i : ℕ} {task : SubmissionTask} (h : Tracked s)
    (hi : s.submissions[i]? = some task) (hmove : TaskMove s t i task) : Tracked t := by
  have hsound := h.tasks i task hi
  cases hmove with
  | registers ht =>
    rw [ht]
    have hnew : TaskSound { task with registered := true } :=
      ⟨hsound.discarded, hsound.finished, hsound.notified⟩
    exact h.of_set hi hnew rfl (.inl ⟨rfl, rfl⟩) rfl
  | cancels ht =>
    rw [ht]
    obtain ⟨hnew, hsame⟩ := hsound.cancelled false
    exact h.of_set hi hnew rfl (.inl ⟨rfl, hsame⟩) rfl
  | ends ht =>
    rw [ht]
    have hnew : TaskSound { task with taskEnded := true } :=
      ⟨hsound.discarded, hsound.finished, fun hnotified => ⟨rfl, (hsound.notified hnotified).2⟩⟩
    exact h.of_set hi hnew rfl (.inl ⟨rfl, rfl⟩) rfl
  | tells hended ht =>
    rw [ht]
    exact h.of_set hi (told_sound hended) rfl (.inl ⟨rfl, rfl⟩) rfl
  | discards hdone ht =>
    rw [ht]
    have hnew : TaskSound { task with discarded := true } :=
      ⟨fun _ => hdone, hsound.finished, hsound.notified⟩
    exact h.of_set hi hnew rfl (.inr ⟨rfl, rfl⟩) rfl

theorem tracked_step {l : SyncLabel} (h : Tracked s) (hs : s.step l = some t) : Tracked t := by
  cases step_cases hs with
  | refuses ht => rw [ht]; exact h
  | accepts _ hroom ht =>
    rw [ht]
    refine ⟨?_, ?_, ?_⟩
    · intro i task hi
      rcases getElem?_concat_cases hi with hi | ⟨-, rfl⟩
      · exact h.tasks i task hi
      · exact ⟨fun hd => by simp at hd, fun hf => by simp at hf, fun hn => by simp at hn⟩
    · intro i task hi hdiscarded
      rcases getElem?_concat_cases hi with hi | ⟨rfl, -⟩
      · exact List.mem_append_left _ (h.pending i task hi hdiscarded)
      · exact List.mem_append_right _ (List.mem_singleton_self _)
    · rw [List.length_append, List.length_singleton]
      exact hroom
  | schedules ht => rcases ht with ⟨-, ht⟩ | ht <;> rw [ht] <;> exact h.of_same rfl rfl rfl
  | submission _ i task hi hmove => exact tracked_submission h hi hmove
  | closes _ c call _ hmove =>
    cases hmove with
    | cancels i _ _ task _ hi ht =>
      rw [ht]
      obtain ⟨hnew, hsame⟩ := (h.tasks i task hi).cancelled true
      exact h.of_set hi hnew rfl (.inl ⟨rfl, hsame⟩) rfl
    | skips _ _ ht | begins _ _ _ ht | drained _ _ _ ht | expires _ _ ht | cancelled _ _ ht
    | awaited _ _ ht | leaves _ _ ht | stops _ _ ht | joins _ _ _ ht | gives _ _ ht =>
      rw [ht]
      exact h.of_same rfl rfl rfl
  | callsClose ht | ends _ _ _ _ _ ht | callsFlush _ _ ht | captures _ _ _ ht | requests _ _ ht
  | closesLoop _ _ ht =>
    rw [ht]
    exact h.of_same rfl rfl rfl
  | flushes _ _ _ _ _ ht => rcases ht with ⟨-, ht⟩ | ht <;> rw [ht] <;> exact h.of_same rfl rfl rfl

end

end SyncShutdown
end Coalestra
