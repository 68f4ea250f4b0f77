import Mathlib.Data.List.Basic

/-! # Bounded payload copies

`core/isolation.py` and the tracker of `core/health.py`: `AsyncPayloadIsolator` in threaded mode.
A call of `run` acquires a slot of the semaphore in a task of its own, starts a worker task around a thread
and waits for it. The slot comes back when the worker task ends, whatever became of the caller.
`aclose` rejects new copies, cancels the acquisitions that still wait and waits for the workers.
Times are left out: a deadline is the choice to expire. -/

namespace Coalestra
set_option autoImplicit false
set_option maxHeartbeats 250000

/-! ## The tracker -/

/-- The counters of `PayloadCopyHealthTracker`. -/
structure PayloadCopyHealthTracker where
  activeCopies : ℕ
  waitingForCapacity : ℕ
  peakActiveCopies : ℕ
  peakWaitingForCapacity : ℕ
  startedCount : ℕ
  completedCount : ℕ
  failureCount : ℕ
  timeoutCount : ℕ
  capacityTimeoutCount : ℕ
  capacityWaitCount : ℕ
  acceptingCopies : Bool
  shutdownStarted : Bool
  shutdownComplete : Bool
  shutdownIncomplete : Bool
  shutdownTimeoutCount : ℕ
  activeAtLastShutdownTimeout : ℕ

namespace PayloadCopyHealthTracker

def new : PayloadCopyHealthTracker :=
  ⟨0, 0, 0, 0, 0, 0, 0, 0, 0, 0, true, false, false, false, 0, 0⟩

def capacityWaitStarted (h : PayloadCopyHealthTracker) : PayloadCopyHealthTracker :=
  { h with
    waitingForCapacity := h.waitingForCapacity + 1
    peakWaitingForCapacity := max h.peakWaitingForCapacity (h.waitingForCapacity + 1) }

/-- `none` is the `RuntimeError`. -/
def capacityWaitFinished (h : PayloadCopyHealthTracker) : Option PayloadCopyHealthTracker :=
  if h.waitingForCapacity = 0 then none
  else some { h with
    waitingForCapacity := h.waitingForCapacity - 1
    capacityWaitCount := h.capacityWaitCount + 1 }

def copyStarted (h : PayloadCopyHealthTracker) : PayloadCopyHealthTracker :=
  { h with
    activeCopies := h.activeCopies + 1
    startedCount := h.startedCount + 1
    peakActiveCopies := max h.peakActiveCopies (h.activeCopies + 1) }

/-- `none` is the `RuntimeError`. -/
def copyFinished (h : PayloadCopyHealthTracker) (failed : Bool) :
    Option PayloadCopyHealthTracker :=
  if h.activeCopies = 0 then none
  else if failed then
    some { h with activeCopies := h.activeCopies - 1, failureCount := h.failureCount + 1 }
  else
    some { h with activeCopies := h.activeCopies - 1, completedCount := h.completedCount + 1 }

def recordTimeout (h : PayloadCopyHealthTracker) (waitingForCapacity : Bool) :
    PayloadCopyHealthTracker :=
  { h with
    timeoutCount := h.timeoutCount + 1
    capacityTimeoutCount :=
      if waitingForCapacity then h.capacityTimeoutCount + 1 else h.capacityTimeoutCount }

def startShutdown (h : PayloadCopyHealthTracker) : PayloadCopyHealthTracker :=
  { h with acceptingCopies := false, shutdownStarted := true, shutdownComplete := false }

def shutdownTimedOut (h : PayloadCopyHealthTracker) (activeCopies : ℕ) :
    PayloadCopyHealthTracker :=
  { h with
    shutdownIncomplete := true
    shutdownTimeoutCount := h.shutdownTimeoutCount + 1
    activeAtLastShutdownTimeout := activeCopies }

def shutdownCompleted (h : PayloadCopyHealthTracker) : PayloadCopyHealthTracker :=
  { h with
    acceptingCopies := false
    shutdownStarted := true
    shutdownComplete := true
    shutdownIncomplete := false }

end PayloadCopyHealthTracker

/-! ## Calls -/

/-- The task around `self._limiter.acquire()`: `granted` has been handed a slot and not resumed. -/
inductive AcquireTask
  | created
  | queued
  | granted
  | acquired
  | cancelled
  deriving DecidableEq, Repr

/-- The copy in its thread; `dropped` is one that was cancelled before a thread took it. -/
inductive CopyThread
  | queued
  | running
  | returned
  | raised
  | dropped
  deriving DecidableEq, Repr

inductive WorkerTask
  | pending
  | returned
  | raised
  | cancelled
  deriving DecidableEq, Repr

/-- A worker task around `asyncio.to_thread`. `stopping` is a cancellation that has not reached it;
`released` is the variable of `release_slot`, and the worker is in `_workers` until then. -/
structure CopyWorker where
  thread : CopyThread
  task : WorkerTask
  stopping : Bool
  released : Bool
  deriving DecidableEq, Repr

/-- Where the caller of `run` stands: in the `asyncio.wait` for its slot, in the `gather` after it
cancelled the acquisition, in the `asyncio.wait` for its worker, or at its end. -/
inductive CopyPosition
  | acquiring
  | reaping (timedOut : Bool)
  | copying
  | ended
  deriving DecidableEq, Repr

/-- A call of `run`. `stopping` is a cancellation of the acquisition and `cancelling` one of the
caller, neither delivered yet. -/
structure CopyCall where
  deadline : Bool
  acquire : AcquireTask
  stopping : Bool
  position : CopyPosition
  cancelling : Bool
  worker : Option CopyWorker
  deriving DecidableEq, Repr

/-- Where an `aclose` call stands that found workers: waiting for them, in the `gather` that was
cancelled, in `asyncio.sleep(0)`, or at its end. -/
inductive ClosePosition
  | waiting (workers : List ℕ) (timed : Bool)
  | interrupted (workers : List ℕ)
  | sleeping
  | ended
  deriving DecidableEq, Repr

/-- An `AsyncPayloadIsolator`; `trackerErrors` counts the `RuntimeError`s of its tracker. -/
structure AsyncPayloadIsolator where
  maxConcurrency : ℕ
  value : ℕ
  calls : List CopyCall
  closers : List ClosePosition
  closing : Bool
  closed : Bool
  tracker : PayloadCopyHealthTracker
  trackerErrors : ℕ

/-- What happens next. `expired` is the answer of a deadline check on the way, `wake` ends the
`asyncio.wait` of a caller and `reap` its `gather`. -/
inductive CopyEvent
  | run (deadline expired expiredWaiting : Bool)
  | acquire (i : ℕ)
  | grant (i : ℕ)
  | cancel (i : ℕ)
  | wake (i : ℕ) (expired : Bool)
  | reap (i : ℕ)
  | threadStarts (i : ℕ)
  | threadEnds (i : ℕ) (raised : Bool)
  | workerEnds (i : ℕ)
  | callback (i : ℕ)
  | aclose (timed : Bool)
  | closerWakes (j : ℕ) (timedOut : Bool)
  | closerEnds (j : ℕ)
  | cancelClose (j : ℕ)
  deriving DecidableEq, Repr

/-- The acquisition has ended. -/
def AcquireTask.done : AcquireTask → Bool
  | .acquired => true
  | .cancelled => true
  | _ => false

/-- The copy takes no more time of a thread. -/
def CopyThread.ended : CopyThread → Bool
  | .queued => false
  | .running => false
  | _ => true

def WorkerTask.done : WorkerTask → Bool
  | .pending => false
  | _ => true

/-- `failed` of `release_slot`. -/
def WorkerTask.failed : WorkerTask → Bool
  | .cancelled => true
  | .raised => true
  | _ => false

/-- The acquisition task is in `_capacity_waiters`. -/
def CopyCall.waits (call : CopyCall) : Bool :=
  match call.position with
  | .acquiring => true
  | .reaping _ => true
  | _ => false

/-- `waiter.cancel()` of `aclose`. -/
def CopyCall.rejectWaiting (call : CopyCall) : CopyCall :=
  if call.waits && !call.acquire.done then { call with stopping := true } else call

/-- `child.cancel()` of a cancelled `gather` over worker tasks. -/
def CopyCall.stopWorker (call : CopyCall) : CopyCall :=
  { call with worker := call.worker.map fun w =>
      if w.task.done then w else { w with stopping := true } }

/-- The worker is in `_workers`. -/
def CopyCall.active (call : CopyCall) : Bool := call.worker.any fun w => !w.released

namespace AsyncPayloadIsolator

def new (maxConcurrency : ℕ) : AsyncPayloadIsolator :=
  ⟨maxConcurrency, maxConcurrency, [], [], false, false, .new, 0⟩

def setCall (r : AsyncPayloadIsolator) (i : ℕ) (call : CopyCall) : AsyncPayloadIsolator :=
  { r with calls := r.calls.set i call }

def setCloser (r : AsyncPayloadIsolator) (j : ℕ) (position : ClosePosition) :
    AsyncPayloadIsolator :=
  { r with closers := r.closers.set j position }

/-- The indices of `_workers`. -/
def workers (r : AsyncPayloadIsolator) : List ℕ :=
  (List.range r.calls.length).filter fun i => r.calls[i]?.any CopyCall.active

/-- The worker task of a call has ended. -/
def workerDone (r : AsyncPayloadIsolator) (i : ℕ) : Bool :=
  r.calls[i]?.any fun call => call.worker.any fun w => w.task.done

/-- `_mark_closed_if_drained`. -/
def markClosedIfDrained (r : AsyncPayloadIsolator) : AsyncPayloadIsolator :=
  if r.closing = false ∨ r.workers ≠ [] ∨ r.closed = true then r
  else { r with closed := true, tracker := r.tracker.shutdownCompleted }

/-- The `finally` of `_acquire_slot`. -/
def waitFinished (r : AsyncPayloadIsolator) : AsyncPayloadIsolator :=
  match r.tracker.capacityWaitFinished with
  | some tracker => { r with tracker := tracker }
  | none => { r with trackerErrors := r.trackerErrors + 1 }

/-- `self._limiter.locked()`. -/
def locked (r : AsyncPayloadIsolator) : Bool :=
  r.value == 0 || r.calls.any fun call =>
    decide (call.acquire = .granted) || (decide (call.acquire = .queued) && !call.stopping)

def timeout (r : AsyncPayloadIsolator) (waitingForCapacity : Bool) : AsyncPayloadIsolator :=
  { r with tracker := r.tracker.recordTimeout waitingForCapacity }

/-- `self._limiter.release()`. -/
def release (r : AsyncPayloadIsolator) : AsyncPayloadIsolator := { r with value := r.value + 1 }

/-- `release_slot`. -/
def releaseSlot (r : AsyncPayloadIsolator) (i : ℕ) (call : CopyCall) (w : CopyWorker) :
    AsyncPayloadIsolator :=
  if w.released then r
  else
    match r.tracker.copyFinished w.task.failed with
    -- The worker would stay in `_workers` and keep its slot.
    | none => { r with trackerErrors := r.trackerErrors + 1 }
    | some tracker => ({ r.setCall i { call with worker := some { w with released := true } } with
        tracker := tracker }).release.markClosedIfDrained

/-- `run` up to its first await. -/
def run (r : AsyncPayloadIsolator) (deadline expired expiredWaiting : Bool) :
    AsyncPayloadIsolator :=
  if r.closing || r.closed then r
  else if deadline && expired then r.timeout false
  else
    let r := { r with tracker := r.tracker.capacityWaitStarted }
    if deadline && expiredWaiting then (r.timeout true).waitFinished
    else { r with calls := r.calls ++ [⟨deadline, .created, false, .acquiring, false, none⟩] }

/-- A turn of the acquisition task. -/
def acquireTurn (r : AsyncPayloadIsolator) (i : ℕ) (call : CopyCall) :
    Option AsyncPayloadIsolator :=
  match call.acquire with
  | .created =>
    if call.stopping then some (r.setCall i { call with acquire := .cancelled })
    else if r.locked then some (r.setCall i { call with acquire := .queued })
    else some { r.setCall i { call with acquire := .acquired } with value := r.value - 1 }
  | .queued =>
    if call.stopping then some (r.setCall i { call with acquire := .cancelled }) else none
  | .granted =>
    -- A cancelled acquisition gives the slot back that it was handed.
    if call.stopping then some (r.setCall i { call with acquire := .cancelled }).release
    else some (r.setCall i { call with acquire := .acquired })
  | _ => none

/-- `run` from its slot to its next await. -/
def start (r : AsyncPayloadIsolator) (i : ℕ) (call : CopyCall) (expired : Bool) :
    AsyncPayloadIsolator :=
  let r := { r.waitFinished with tracker := r.waitFinished.tracker.copyStarted }
  let call := { call with worker := some ⟨.queued, .pending, false, false⟩ }
  if call.deadline && expired then (r.setCall i { call with position := .ended }).timeout false
  else r.setCall i { call with position := .copying }

/-- The `asyncio.wait` of a caller has ended. -/
def wakeTurn (r : AsyncPayloadIsolator) (i : ℕ) (call : CopyCall) (expired : Bool) :
    Option AsyncPayloadIsolator :=
  let ended := { call with position := .ended, cancelling := false }
  match call.position with
  | .acquiring =>
    if call.cancelling then
      match call.acquire with
      | .acquired => some (r.setCall i ended).release.waitFinished
      | .cancelled => some (r.setCall i ended).waitFinished
      | _ => some (r.setCall i { call with
          stopping := true, position := .reaping false, cancelling := false })
    else
      match call.acquire with
      | .acquired =>
        if r.closing then some (r.setCall i ended).release.waitFinished
        else some (r.start i call expired)
      | .cancelled => some (r.setCall i ended).waitFinished
      | _ =>
        if call.deadline && expired then
          some (r.setCall i { call with stopping := true, position := .reaping true })
        else none
  | .copying =>
    if call.cancelling then some (r.setCall i ended)
    else
      match call.worker with
      | some w =>
        if w.task.done then
          -- The result is taken, or the exception raised, before the `finally`.
          let r := if call.deadline && expired && !w.task.failed then r.timeout false else r
          some ((r.setCall i ended).releaseSlot i ended w)
        else if call.deadline && expired then some ((r.setCall i ended).timeout false)
        else none
      | none => none
  | _ => none

/-- The `gather` of a caller has ended. -/
def reapTurn (r : AsyncPayloadIsolator) (i : ℕ) (call : CopyCall) : Option AsyncPayloadIsolator :=
  match call.position with
  | .reaping timedOut =>
    if call.acquire.done then
      let r := if timedOut && !call.cancelling then r.timeout true else r
      some (r.setCall i { call with position := .ended, cancelling := false }).waitFinished
    else none
  | _ => none

/-- A turn of the worker task, once its thread has ended or it was cancelled. -/
def workerTurn (r : AsyncPayloadIsolator) (i : ℕ) (call : CopyCall) (w : CopyWorker) :
    Option AsyncPayloadIsolator :=
  if w.task = .pending then
    if w.stopping then
      let thread := if w.thread = .queued then .dropped else w.thread
      some (r.setCall i { call with
        worker := some { w with thread := thread, task := .cancelled } })
    else
      match w.thread with
      | .returned => some (r.setCall i { call with worker := some { w with task := .returned } })
      | .raised => some (r.setCall i { call with worker := some { w with task := .raised } })
      | _ => none
  else none

/-- `aclose` up to its first await. -/
def aclose (r : AsyncPayloadIsolator) (timed : Bool) : AsyncPayloadIsolator :=
  if r.closed then r
  else
    let r := if r.closing then r
      else { r with
        closing := true
        tracker := r.tracker.startShutdown
        calls := r.calls.map CopyCall.rejectWaiting }.markClosedIfDrained
    if r.closed then r else { r with closers := r.closers ++ [.waiting r.workers timed] }

/-- A cancellation of the worker tasks that have not ended. -/
def cancelWorkers (r : AsyncPayloadIsolator) (workers : List ℕ) : AsyncPayloadIsolator :=
  { r with calls := r.calls.mapIdx fun i call => if i ∈ workers then call.stopWorker else call }

def step (r : AsyncPayloadIsolator) : CopyEvent → Option AsyncPayloadIsolator
  | .run deadline expired expiredWaiting => some (r.run deadline expired expiredWaiting)
  | .acquire i => r.calls[i]?.bind fun call => r.acquireTurn i call
  | .grant i => r.calls[i]?.bind fun call =>
      if call.acquire = .queued ∧ call.stopping = false ∧ 0 < r.value then
        some { r.setCall i { call with acquire := .granted } with value := r.value - 1 }
      else none
  | .cancel i => r.calls[i]?.bind fun call =>
      if call.position = .ended then none else some (r.setCall i { call with cancelling := true })
  | .wake i expired => r.calls[i]?.bind fun call => r.wakeTurn i call expired
  | .reap i => r.calls[i]?.bind fun call => r.reapTurn i call
  | .threadStarts i => r.calls[i]?.bind fun call => call.worker.bind fun w =>
      if w.thread = .queued then
        some (r.setCall i { call with worker := some { w with thread := .running } })
      else none
  | .threadEnds i raised => r.calls[i]?.bind fun call => call.worker.bind fun w =>
      if w.thread = .running then
        some (r.setCall i { call with worker := some { w with
          thread := if raised then .raised else .returned } })
      else none
  | .workerEnds i => r.calls[i]?.bind fun call => call.worker.bind fun w => r.workerTurn i call w
  | .callback i => r.calls[i]?.bind fun call => call.worker.bind fun w =>
      if w.task.done then some (r.releaseSlot i call w) else none
  | .aclose timed => some (r.aclose timed)
  | .closerWakes j timedOut =>
    match r.closers[j]? with
    | some (.waiting workers timed) =>
      if workers.all r.workerDone then some (r.setCloser j .sleeping)
      else if timed && timedOut then
        let pending := workers.filter fun i => !r.workerDone i
        some { r.setCloser j .ended with tracker := r.tracker.shutdownTimedOut pending.length }
      else none
    | some (.interrupted workers) =>
      if workers.all r.workerDone then some (r.setCloser j .ended) else none
    | _ => none
  | .closerEnds j =>
    match r.closers[j]? with
    | some .sleeping => some (r.setCloser j .ended).markClosedIfDrained
    | _ => none
  | .cancelClose j =>
    match r.closers[j]? with
    | some (.waiting workers timed) =>
      -- `asyncio.wait` leaves the workers alone; a cancelled `gather` cancels them.
      if timed then some (r.setCloser j .ended)
      else some ((r.setCloser j (.interrupted workers)).cancelWorkers workers)
    | some (.interrupted workers) => some (r.cancelWorkers workers)
    | some .sleeping => some (r.setCloser j .ended)
    | _ => none

/-- A cancellation reaches worker tasks whose copies are still in their threads. -/
def Interrupts (r : AsyncPayloadIsolator) (e : CopyEvent) : Prop :=
  ∃ j workers, e = .cancelClose j ∧
    (r.closers[j]? = some (.waiting workers false) ∨ r.closers[j]? = some (.interrupted workers)) ∧
    ∃ i ∈ workers, ∃ call w, r.calls[i]? = some call ∧ call.worker = some w ∧
      w.task.done = false ∧ w.thread.ended = false

end AsyncPayloadIsolator

end Coalestra
