import Coalestra.Lib.Runs
import Coalestra.Orchestration.Runtime

/-! # Background refreshes

`RefreshManager`: the registry of refresh tasks, the event loop that runs them, the callback
`_finish` that follows each of them, and the callers of `wait` and `close`. How the flight of a
refresh ends is not decided here: it arrives at the await of `_refresh_resource`. A task that is
cancelled before its first step never enters `_refresh_resource`. `gather` may end as soon as its
tasks are done, when the callbacks of some are still due. -/

namespace Coalestra
set_option autoImplicit false
set_option maxHeartbeats 250000

/-! ## Tasks and callers -/

/-- How `_refresh_resource` ends: the `status` of its last metric. -/
inductive RefreshOutcome
  | success
  | cancelled
  | failure
  deriving DecidableEq, Repr

/-- The `status` of `resource_refresh_total`. -/
inductive RefreshStatus
  | scheduled
  | ended (outcome : RefreshOutcome)
  deriving DecidableEq, Repr

/-- Where the task of a refresh stands; `discarded` was cancelled before its first step. -/
inductive RefreshProgress
  | created
  | running
  | ended (outcome : RefreshOutcome)
  | discarded
  deriving DecidableEq, Repr

/-- The task of one refresh; `diagnostics` is the collector it reports to, `finished` says that
`_finish` has run. -/
structure RefreshTask (K : Type) where
  key : K
  diagnostics : ℕ
  reason : String
  progress : RefreshProgress
  cancelRequested : Bool
  finished : Bool

/-- `not task.done()`. -/
def RefreshTask.live {K : Type} (task : RefreshTask K) : Bool :=
  match task.progress with
  | .created | .running => true
  | .ended _ | .discarded => false

/-- What `run_many` hands to `_refresh_resource`. -/
inductive FlightOutcome (K V : Type)
  | delivered (result : ResolutionResult K V)
  | raised (error : Error K)
  | cancelled

/-- A cancellation that was asked for is what the await delivers. -/
def FlightOutcome.fits {K V : Type} (task : RefreshTask K) : FlightOutcome K V → Bool
  | .cancelled => true
  | _ => !task.cancelRequested

/-- The refresh counters of `DiagnosticsCollector`. -/
structure RefreshCounts where
  scheduled : ℕ
  completed : ℕ
  failed : ℕ
  deriving DecidableEq, Repr

/-- `diagnostics.refresh_completed += 1` or `diagnostics.refresh_failed += 1`. -/
def RefreshCounts.count (c : RefreshCounts) : RefreshOutcome → RefreshCounts
  | .success => { c with completed := c.completed + 1 }
  | .cancelled | .failure => { c with failed := c.failed + 1 }

/-- What the event sink receives. -/
inductive RefreshEvent (K : Type)
  | scheduled (key : K) (reason snapshotId : String)
  | completed (key : K) (source reason : String)
  | failed (key : K) (reason : String) (error : Error K)

inductive RefreshCall
  | wait
  | close (cancel : Bool)
  deriving DecidableEq, Repr

/-- Where a caller stands; `awaited` are the tasks of its `gather`. -/
inductive RefreshCallPoint
  | gathering (awaited : List ℕ)
  | returned
  | raised
  deriving DecidableEq, Repr

structure RefreshCaller where
  call : RefreshCall
  point : RefreshCallPoint
  interrupted : Bool
  deriving DecidableEq, Repr

/-- The manager with every task it ever created. -/
structure RefreshManager (K : Type) [DecidableEq K] where
  tasks : Dict K ℕ
  closed : Bool
  created : List (RefreshTask K)
  callers : List RefreshCaller
  diagnostics : ℕ → RefreshCounts
  metrics : List (K × RefreshStatus)
  events : List (RefreshEvent K)

inductive RefreshLabel (K V : Type)
  | schedule (key : K) (diagnostics : ℕ) (reason snapshotId : String)
  | start (i : ℕ)
  | resume (i : ℕ) (outcome : FlightOutcome K V)
  | cancel (i : ℕ)
  | finish (i : ℕ)
  | call (call : RefreshCall)
  | turn (w : ℕ)
  | interrupt (w : ℕ)

namespace RefreshManager
variable {K V : Type} [DecidableEq K]

def new : RefreshManager K := ⟨.empty, false, [], [], fun _ => ⟨0, 0, 0⟩, [], []⟩

def task? (s : RefreshManager K) (i : ℕ) : Option (RefreshTask K) := s.created[i]?

def setTask (s : RefreshManager K) (i : ℕ) (task : RefreshTask K) : RefreshManager K :=
  { s with created := s.created.set i task }

/-- `existing is not None and not existing.done()`. -/
def pending (s : RefreshManager K) (key : K) : Bool :=
  ((s.tasks.get? key).bind s.task?).any RefreshTask.live

/-! ## Scheduling -/

def schedule (s : RefreshManager K) (key : K) (diagnostics : ℕ) (reason snapshotId : String) :
    Bool × RefreshManager K :=
  if s.closed then (false, s)
  else if s.pending key then (true, s)
  else
    let counts := s.diagnostics diagnostics
    (true, { s with
      tasks := s.tasks.set key s.created.length
      created := s.created ++ [⟨key, diagnostics, reason, .created, false, false⟩]
      diagnostics := Function.update s.diagnostics diagnostics
        { counts with scheduled := counts.scheduled + 1 }
      metrics := s.metrics ++ [(key, .scheduled)]
      events := s.events ++ [.scheduled key reason snapshotId] })

/-- The end of `_refresh_resource`: one counter, one metric, and an event unless cancelled. -/
def conclude (s : RefreshManager K) (i : ℕ) (task : RefreshTask K) (outcome : RefreshOutcome)
    (event : Option (RefreshEvent K)) : RefreshManager K :=
  { s with
    created := s.created.set i { task with progress := .ended outcome }
    diagnostics := Function.update s.diagnostics task.diagnostics
      ((s.diagnostics task.diagnostics).count outcome)
    metrics := s.metrics ++ [(task.key, .ended outcome)]
    events := s.events ++ event.toList }

/-- `_refresh_resource` behind its await; a stale value counts as a failure. -/
def settle (s : RefreshManager K) (i : ℕ) (task : RefreshTask K) :
    FlightOutcome K V → RefreshManager K
  | .delivered (.ok value) =>
    if value.stale then
      s.conclude i task .failure
        (some (.failed task.key task.reason (.other "SourceUnavailableError")))
    else s.conclude i task .success (some (.completed task.key value.source task.reason))
  | .delivered (.error error) | .raised error =>
    s.conclude i task .failure (some (.failed task.key task.reason error))
  | .cancelled => s.conclude i task .cancelled none

/-- `task.cancel()` for each of these tasks. -/
def cancel (s : RefreshManager K) (tasks : List ℕ) : RefreshManager K :=
  { s with created := s.created.mapIdx fun i task =>
      if decide (i ∈ tasks) && task.live then { task with cancelRequested := true } else task }

/-- `_finish`. -/
def finish (s : RefreshManager K) (i : ℕ) (task : RefreshTask K) : RefreshManager K :=
  { s with
    tasks := if s.tasks.get? task.key = some i then s.tasks.erase task.key else s.tasks
    created := s.created.set i { task with finished := true } }

/-! ## `wait` and `close` -/

/-- `gather` over the registered tasks, if there are any. -/
def gather (s : RefreshManager K) : RefreshCallPoint :=
  if s.tasks.entries.isEmpty then .returned else .gathering s.tasks.values

/-- What a call does before its first `gather`. -/
def shut (s : RefreshManager K) : RefreshCall → RefreshManager K
  | .wait => s
  | .close false => { s with closed := true }
  | .close true => { s with closed := true }.cancel s.tasks.values

def enter (s : RefreshManager K) (call : RefreshCall) : RefreshManager K :=
  { s.shut call with callers := s.callers ++ [⟨call, (s.shut call).gather, false⟩] }

/-- Where a caller goes when its `gather` has ended. -/
def proceed (s : RefreshManager K) (caller : RefreshCaller) : RefreshCallPoint :=
  if caller.interrupted then .raised
  else match caller.call with
    | .wait => s.gather
    | .close _ => .returned

def done (s : RefreshManager K) (i : ℕ) : Bool := (s.task? i).any fun task => !task.live

/-! ## Steps -/

def step (s : RefreshManager K) : RefreshLabel K V → Option (RefreshManager K)
  | .schedule key diagnostics reason snapshotId =>
    some (s.schedule key diagnostics reason snapshotId).2
  | .start i => (s.task? i).bind fun task =>
    if task.progress = .created then
      some (s.setTask i
        { task with progress := if task.cancelRequested then .discarded else .running })
    else none
  | .resume i outcome => (s.task? i).bind fun task =>
    if task.progress = .running && FlightOutcome.fits task outcome then
      some (s.settle i task outcome)
    else none
  | .cancel i => some (s.cancel [i])
  | .finish i => (s.task? i).bind fun task =>
    if task.live || task.finished then none else some (s.finish i task)
  | .call call => some (s.enter call)
  | .turn w => s.callers[w]?.bind fun caller =>
    match caller.point with
    | .gathering awaited =>
      if awaited.all s.done then
        some { s with callers := s.callers.set w { caller with point := s.proceed caller } }
      else none
    | _ => none
  | .interrupt w => s.callers[w]?.bind fun caller =>
    match caller.point with
    | .gathering awaited => some
      { s.cancel awaited with callers := s.callers.set w { caller with interrupted := true } }
    | _ => none

end RefreshManager

/-! ## What a step does to a task -/

section
variable {K : Type}

/-- Asked to stop, and neither completed nor failed since. -/
def RefreshTask.Stopping (task : RefreshTask K) : Prop :=
  match task.progress with
  | .created | .running => task.cancelRequested = true
  | .ended .cancelled | .discarded => True
  | .ended _ => False

/-- What becomes of a task: it keeps its key and its collector, it never comes back to life, and
once stopping it goes on stopping. -/
structure RefreshTask.Advanced (t u : RefreshTask K) : Prop where
  key : u.key = t.key
  diagnostics : u.diagnostics = t.diagnostics
  live : u.live = true → t.live = true
  ended : t.live = false → u.progress = t.progress
  stopping : t.Stopping → u.Stopping

theorem RefreshTask.Advanced.refl (t : RefreshTask K) : t.Advanced t :=
  ⟨rfl, rfl, id, fun _ => rfl, id⟩

theorem RefreshTask.Advanced.trans {t u v : RefreshTask K} (h : t.Advanced u)
    (h' : u.Advanced v) : t.Advanced v := by
  refine ⟨h'.key.trans h.key, h'.diagnostics.trans h.diagnostics, fun hv => h.live (h'.live hv),
    fun ht => ?_, fun ht => h'.stopping (h.stopping ht)⟩
  have hu : u.live = false := by
    cases hl : u.live with
    | false => rfl
    | true => rw [h.live hl] at ht; exact ht
  rw [h'.ended hu, h.ended ht]

theorem RefreshTask.Advanced.requested (t : RefreshTask K) :
    t.Advanced { t with cancelRequested := true } := by
  refine ⟨rfl, rfl, id, fun _ => rfl, fun h => ?_⟩
  unfold RefreshTask.Stopping at h ⊢
  split <;> simp_all

theorem RefreshTask.Advanced.started {t : RefreshTask K} (h : t.progress = .created) :
    t.Advanced
      { t with progress := if t.cancelRequested then .discarded else .running } := by
  have hl : t.live = true := by simp [RefreshTask.live, h]
  refine ⟨rfl, rfl, fun _ => hl, fun hn => ?_, fun hs => ?_⟩
  · rw [hl] at hn
    cases hn
  · have hc : t.cancelRequested = true := by simpa [RefreshTask.Stopping, h] using hs
    simp [RefreshTask.Stopping, hc]

theorem RefreshTask.Advanced.concluded {t : RefreshTask K} {outcome : RefreshOutcome}
    (h : t.progress = .running) (hfit : outcome = .cancelled ∨ t.cancelRequested = false) :
    t.Advanced { t with progress := .ended outcome } := by
  have hl : t.live = true := by simp [RefreshTask.live, h]
  refine ⟨rfl, rfl, fun _ => hl, fun hn => ?_, fun hs => ?_⟩
  · rw [hl] at hn
    cases hn
  · have hc : t.cancelRequested = true := by simpa [RefreshTask.Stopping, h] using hs
    rcases hfit with rfl | hfit
    · trivial
    · rw [hfit] at hc
      cases hc

end

namespace RefreshManager
variable {K V : Type} [DecidableEq K]

/-- Every task of `s` is still there, and none is new. -/
structure Follows (s s' : RefreshManager K) : Prop where
  length : s'.created.length = s.created.length
  task : ∀ i t, s.task? i = some t → ∃ u, s'.task? i = some u ∧ t.Advanced u

/-- Neither the registry nor a callback is touched. -/
structure Quiet (s s' : RefreshManager K) : Prop extends s.Follows s' where
  tasks : s'.tasks = s.tasks
  finished : ∀ i, (s'.task? i).map RefreshTask.finished = (s.task? i).map RefreshTask.finished

theorem Follows.set {s s' : RefreshManager K} {i : ℕ} {t u : RefreshTask K}
    (ht : s.task? i = some t) (hu : t.Advanced u) (hs : s'.created = s.created.set i u) :
    s.Follows s' := by
  refine ⟨by rw [hs, List.length_set], fun j v hv => ?_⟩
  rw [task?] at ht hv
  rw [task?, hs, List.getElem?_set]
  by_cases hj : i = j
  · subst hj
    rw [ht, Option.some.injEq] at hv
    subst hv
    obtain ⟨hlt, _⟩ := List.getElem?_eq_some_iff.mp ht
    exact ⟨u, by simp [hlt], hu⟩
  · exact ⟨v, by simp [hj, hv], .refl v⟩

theorem task?_set {s s' : RefreshManager K} {i : ℕ} {t u : RefreshTask K}
    (ht : s.task? i = some t) (hs : s'.created = s.created.set i u) (j : ℕ) :
    s'.task? j = if i = j then some u else s.task? j := by
  obtain ⟨hlt, _⟩ := List.getElem?_eq_some_iff.mp ht
  rw [task?, hs, List.getElem?_set]
  by_cases hj : i = j
  · subst hj
    simp [hlt]
  · simp [hj, task?]

theorem Quiet.of_created {s s' : RefreshManager K} (h : s'.created = s.created)
    (htasks : s'.tasks = s.tasks) : s.Quiet s' := by
  have htask : ∀ i, s'.task? i = s.task? i := fun i => by rw [task?, task?, h]
  refine ⟨⟨by rw [h], fun i t ht => ⟨t, by rw [htask, ht], .refl t⟩⟩, htasks, fun i => ?_⟩
  rw [htask]

theorem Quiet.set {s s' : RefreshManager K} {i : ℕ} {t u : RefreshTask K}
    (ht : s.task? i = some t) (hu : t.Advanced u) (hfinished : u.finished = t.finished)
    (hs : s'.created = s.created.set i u) (htasks : s'.tasks = s.tasks) : s.Quiet s' := by
  refine ⟨.set ht hu hs, htasks, fun j => ?_⟩
  rw [task?_set ht hs j]
  by_cases hj : i = j
  · subst hj
    simp [ht, hfinished]
  · simp [hj]

theorem task?_cancel (s : RefreshManager K) (tasks : List ℕ) (i : ℕ) :
    (s.cancel tasks).task? i = (s.task? i).map fun task =>
      if decide (i ∈ tasks) && task.live then { task with cancelRequested := true } else task := by
  rw [task?, task?, cancel, List.getElem?_mapIdx]

theorem Quiet.cancel (s : RefreshManager K) (tasks : List ℕ) : s.Quiet (s.cancel tasks) := by
  refine ⟨⟨by simp [RefreshManager.cancel], fun i t ht => ?_⟩, rfl, fun i => ?_⟩
  · rw [task?_cancel, ht]
    by_cases h : (decide (i ∈ tasks) && t.live) = true
    · exact ⟨_, by simp only [Option.map_some, h, if_true], .requested t⟩
    · exact ⟨_, by simp only [Option.map_some, h]; rfl, .refl t⟩
  · rw [task?_cancel, Option.map_map]
    congr 1
    funext t
    simp only [Function.comp_apply]
    split <;> rfl

theorem Follows.trans {s t u : RefreshManager K} (h : s.Follows t) (h' : t.Follows u) :
    s.Follows u := by
  refine ⟨h'.length.trans h.length, fun i a ha => ?_⟩
  obtain ⟨b, hb, hab⟩ := h.task i a ha
  obtain ⟨c, hc, hbc⟩ := h'.task i b hb
  exact ⟨c, hc, hab.trans hbc⟩

theorem Quiet.trans {s t u : RefreshManager K} (h : s.Quiet t) (h' : t.Quiet u) : s.Quiet u :=
  ⟨h.toFollows.trans h'.toFollows, h'.tasks.trans h.tasks,
    fun i => (h'.finished i).trans (h.finished i)⟩

theorem created_settle (s : RefreshManager K) (i : ℕ) (t : RefreshTask K)
    (outcome : FlightOutcome K V) :
    ∃ o, (s.settle i t outcome).created = s.created.set i { t with progress := .ended o } ∧
      (o = .cancelled ∨ outcome ≠ .cancelled) := by
  cases outcome with
  | delivered result =>
    cases result with
    | ok value =>
      by_cases h : value.stale = true
      · exact ⟨.failure, by simp [settle, h, conclude], by simp⟩
      · exact ⟨.success, by simp [settle, h, conclude], by simp⟩
    | error e => exact ⟨.failure, rfl, by simp⟩
  | raised e => exact ⟨.failure, rfl, by simp⟩
  | cancelled => exact ⟨.cancelled, rfl, .inl rfl⟩

@[simp] theorem tasks_settle (s : RefreshManager K) (i : ℕ) (t : RefreshTask K)
    (outcome : FlightOutcome K V) : (s.settle i t outcome).tasks = s.tasks := by
  cases outcome with
  | delivered result =>
    cases result with
    | ok value => by_cases h : value.stale = true <;> simp [settle, h, conclude]
    | error e => rfl
  | raised e => rfl
  | cancelled => rfl

theorem closed_settle (s : RefreshManager K) (i : ℕ) (t : RefreshTask K)
    (outcome : FlightOutcome K V) :
    (s.settle i t outcome).closed = s.closed ∧ (s.settle i t outcome).callers = s.callers := by
  cases outcome with
  | delivered result =>
    cases result with
    | ok value => by_cases h : value.stale = true <;> simp [settle, h, conclude]
    | error e => exact ⟨rfl, rfl⟩
  | raised e => exact ⟨rfl, rfl⟩
  | cancelled => exact ⟨rfl, rfl⟩

theorem Quiet.settle {s : RefreshManager K} {i : ℕ} {t : RefreshTask K}
    {outcome : FlightOutcome K V} (ht : s.task? i = some t) (hp : t.progress = .running)
    (hfit : outcome.fits t = true) : s.Quiet (s.settle i t outcome) := by
  obtain ⟨o, ho, hcancel⟩ := created_settle s i t outcome
  refine Quiet.set ht (RefreshTask.Advanced.concluded hp ?_) rfl ho (tasks_settle s i t outcome)
  apply hcancel.imp_right
  intro hne
  cases outcome with
  | cancelled => exact absurd rfl hne
  | delivered _ | raised _ => simpa [FlightOutcome.fits] using hfit

theorem Quiet.enter (s : RefreshManager K) (call : RefreshCall) : s.Quiet (s.enter call) := by
  cases call with
  | wait => exact .of_created rfl rfl
  | close cancel =>
    cases cancel with
    | false => exact .of_created rfl rfl
    | true =>
      have hclosed : s.Quiet { s with closed := true } := .of_created rfl rfl
      exact hclosed.trans ((Quiet.cancel _ s.tasks.values).trans (.of_created rfl rfl))

/-- A scheduled task is registered, at the end of the list. -/
structure Scheduled (s s' : RefreshManager K) (key : K) : Prop where
  closed : s.closed = false
  free : s.pending key = false
  task : ∃ diagnostics reason,
    s'.created = s.created ++ [⟨key, diagnostics, reason, .created, false, false⟩]
  tasks : s'.tasks = s.tasks.set key s.created.length
  callers : s'.callers = s.callers
  stillOpen : s'.closed = false

theorem schedule_cases (s : RefreshManager K) (key : K) (diagnostics : ℕ)
    (reason snapshotId : String) :
    ((s.schedule key diagnostics reason snapshotId).2 = s ∧
        (s.closed = true ∨ s.pending key = true)) ∨
      s.Scheduled (s.schedule key diagnostics reason snapshotId).2 key := by
  unfold schedule
  by_cases hc : s.closed = true
  · exact .inl ⟨by simp [hc], .inl hc⟩
  · by_cases hp : s.pending key = true
    · exact .inl ⟨by simp [hc, hp], .inr hp⟩
    · refine .inr ⟨by simpa using hc, by simpa using hp, ⟨diagnostics, reason, ?_⟩, ?_, ?_, ?_⟩ <;>
        simp [hc, hp]


/-- What a step can do. Only `moved` touches a caller that stands: its `gather` has ended, or it
was interrupted. -/
inductive Effect (s s' : RefreshManager K) : Prop
  | aside (quiet : s.Quiet s') (closed : s'.closed = s.closed) (callers : s'.callers = s.callers)
  | finished (i : ℕ) (task : RefreshTask K) (found : s.task? i = some task)
      (dead : task.live = false) (result : s' = s.finish i task)
  | scheduled (key : K) (scheduled : s.Scheduled s' key)
  | entered (call : RefreshCall) (result : s' = s.enter call)
  | moved (w : ℕ) (before after : RefreshCaller) (awaited : List ℕ) (quiet : s.Quiet s')
      (closed : s'.closed = s.closed) (found : s.callers[w]? = some before)
      (gathering : before.point = .gathering awaited) (callers : s'.callers = s.callers.set w after)
      (call : after.call = before.call)
      (point : after.point = before.point ∨
        after.point = s.proceed before ∧ awaited.all s.done = true)

theorem step_effect {s s' : RefreshManager K} {l : RefreshLabel K V} (h : s.step l = some s') :
    s.Effect s' := by
  cases l with
  | schedule key diagnostics reason snapshotId =>
    rw [step, Option.some.injEq] at h
    subst h
    obtain ⟨hs, -⟩ | hs := schedule_cases s key diagnostics reason snapshotId
    · rw [hs]
      exact .aside (.of_created rfl rfl) rfl rfl
    · exact .scheduled key hs
  | start i =>
    simp only [step, Option.bind_eq_some_iff, Option.ite_none_right_eq_some,
      Option.some.injEq] at h
    obtain ⟨t, ht, hp, rfl⟩ := h
    exact .aside (Quiet.set ht (RefreshTask.Advanced.started hp) rfl rfl rfl) rfl rfl
  | resume i outcome =>
    simp only [step, Option.bind_eq_some_iff, Option.ite_none_right_eq_some, Option.some.injEq,
      Bool.and_eq_true, decide_eq_true_eq] at h
    obtain ⟨t, ht, ⟨hp, hfit⟩, rfl⟩ := h
    obtain ⟨hclosed, hcallers⟩ := closed_settle s i t outcome
    exact .aside (Quiet.settle ht hp hfit) hclosed hcallers
  | cancel i =>
    rw [step, Option.some.injEq] at h
    subst h
    exact .aside (.cancel s [i]) rfl rfl
  | finish i =>
    simp only [step, Option.bind_eq_some_iff, Option.ite_none_left_eq_some,
      Option.some.injEq, Bool.or_eq_true, not_or, Bool.not_eq_true] at h
    obtain ⟨t, ht, ⟨hl, -⟩, rfl⟩ := h
    exact .finished i t ht hl rfl
  | call call =>
    rw [step, Option.some.injEq] at h
    exact .entered call h.symm
  | turn w =>
    simp only [step, Option.bind_eq_some_iff] at h
    obtain ⟨caller, hw, h⟩ := h
    split at h
    · rename_i awaited hpoint
      rw [Option.ite_none_right_eq_some, Option.some.injEq] at h
      obtain ⟨hdone, rfl⟩ := h
      exact .moved w caller _ awaited (.of_created rfl rfl) rfl hw hpoint rfl rfl
        (.inr ⟨rfl, hdone⟩)
    · cases h
  | interrupt w =>
    simp only [step, Option.bind_eq_some_iff] at h
    obtain ⟨caller, hw, h⟩ := h
    split at h
    · rename_i awaited hpoint
      rw [Option.some.injEq] at h
      subst h
      exact .moved w caller _ awaited ((Quiet.cancel s awaited).trans (.of_created rfl rfl)) rfl hw
        hpoint rfl rfl (.inl rfl)
    · cases h

theorem Follows.finish {s : RefreshManager K} {i : ℕ} {t : RefreshTask K}
    (ht : s.task? i = some t) : s.Follows (s.finish i t) := by
  have hadv : t.Advanced { t with finished := true } := ⟨rfl, rfl, id, fun _ => rfl, id⟩
  exact .set ht hadv rfl

/-! ## The registry -/

/-- The registry holds tasks whose callback is due, every live task among them, and a live task is
the last of its key. -/
structure Sound (s : RefreshManager K) : Prop where
  registered : ∀ key i, s.tasks.get? key = some i →
    ∃ t, s.task? i = some t ∧ t.key = key ∧ t.finished = false
  live : ∀ i t, s.task? i = some t → t.live = true → s.tasks.get? t.key = some i
  newest : ∀ i j t u, s.task? i = some t → s.task? j = some u → t.key = u.key →
    t.live = true → j ≤ i

theorem Sound.new : (new : RefreshManager K).Sound := by
  refine ⟨fun key i h => ?_, fun i t h => ?_, fun i j t u h => ?_⟩
  · simp [RefreshManager.new] at h
  · simp [RefreshManager.new, task?] at h
  · simp [RefreshManager.new, task?] at h

theorem Follows.before {s s' : RefreshManager K} (h : s.Follows s') {i : ℕ} {u : RefreshTask K}
    (hu : s'.task? i = some u) : ∃ t, s.task? i = some t ∧ t.Advanced u := by
  obtain ⟨hlt, _⟩ := List.getElem?_eq_some_iff.mp hu
  rw [h.length] at hlt
  obtain ⟨v, hv, hadv⟩ := h.task i _ (List.getElem?_eq_getElem hlt)
  rw [hu, Option.some.injEq] at hv
  subst hv
  exact ⟨_, List.getElem?_eq_getElem hlt, hadv⟩

theorem Sound.quiet {s s' : RefreshManager K} (h : s.Sound) (hq : s.Quiet s') : s'.Sound := by
  refine ⟨fun key i hi => ?_, fun i u hu hl => ?_, fun i j u v hu hv hkey hl => ?_⟩
  · rw [hq.tasks] at hi
    obtain ⟨t, ht, hkey, hfin⟩ := h.registered key i hi
    obtain ⟨u, hu, hadv⟩ := hq.task i t ht
    have hsame := hq.finished i
    rw [hu, ht, Option.map_some, Option.map_some, Option.some.injEq] at hsame
    exact ⟨u, hu, hadv.key.trans hkey, hsame.trans hfin⟩
  · obtain ⟨t, ht, hadv⟩ := hq.before hu
    rw [hq.tasks, hadv.key]
    exact h.live i t ht (hadv.live hl)
  · obtain ⟨t, ht, hadv⟩ := hq.before hu
    obtain ⟨w, hw, hadv'⟩ := hq.before hv
    exact h.newest i j t w ht hw (hadv.key.symm.trans (hkey.trans hadv'.key)) (hadv.live hl)

/-- The registry loses at most the entry of the finished task. -/
theorem get?_finish (s : RefreshManager K) (i : ℕ) (t : RefreshTask K) (key : K) (j : ℕ) :
    (s.finish i t).tasks.get? key = some j ↔
      s.tasks.get? key = some j ∧ ¬ (key = t.key ∧ j = i) := by
  simp only [RefreshManager.finish]
  split
  · rename_i hreg
    rw [Dict.get?_erase]
    by_cases hkey : key = t.key
    · subst hkey
      simp [hreg, eq_comm]
    · simp [hkey]
  · rename_i hreg
    constructor
    · intro hj
      refine ⟨hj, ?_⟩
      rintro ⟨rfl, rfl⟩
      exact hreg hj
    · exact fun hj => hj.1

theorem Sound.finish {s : RefreshManager K} (h : s.Sound) {i : ℕ} {t : RefreshTask K}
    (ht : s.task? i = some t) (hdead : t.live = false) : (s.finish i t).Sound := by
  have htask : ∀ j, (s.finish i t).task? j =
      if i = j then some { t with finished := true } else s.task? j := task?_set ht rfl
  refine ⟨fun key j hj => ?_, fun j u hu hl => ?_, fun j k u v hu hv hkey hl => ?_⟩
  · obtain ⟨hj, hne⟩ := (get?_finish s i t key j).mp hj
    obtain ⟨u, hu, hkey, hfin⟩ := h.registered key j hj
    have hij : i ≠ j := by
      rintro rfl
      rw [ht, Option.some.injEq] at hu
      subst hu
      exact hne ⟨hkey.symm, rfl⟩
    exact ⟨u, by rw [htask, if_neg hij, hu], hkey, hfin⟩
  · have hij : i ≠ j := by
      rintro rfl
      rw [htask, if_pos rfl, Option.some.injEq] at hu
      subst hu
      rw [show t.live = true from hl] at hdead
      cases hdead
    rw [htask, if_neg hij] at hu
    exact (get?_finish s i t u.key j).mpr ⟨h.live j u hu hl, fun hsame => hij hsame.2.symm⟩
  · obtain ⟨u', hu', hadv⟩ := (Follows.finish ht).before hu
    obtain ⟨v', hv', hadv'⟩ := (Follows.finish ht).before hv
    exact h.newest j k u' v' hu' hv' (hadv.key.symm.trans (hkey.trans hadv'.key)) (hadv.live hl)

/-- A registered live task is what `schedule` finds. -/
theorem Sound.pending_iff {s : RefreshManager K} (h : s.Sound) (key : K) :
    s.pending key = true ↔ ∃ i t, s.task? i = some t ∧ t.key = key ∧ t.live = true := by
  constructor
  · intro hp
    rw [pending, Option.any_eq_true] at hp
    obtain ⟨t, ht, hl⟩ := hp
    rw [Option.bind_eq_some_iff] at ht
    obtain ⟨i, hi, ht⟩ := ht
    obtain ⟨u, hu, hkey, -⟩ := h.registered key i hi
    rw [ht, Option.some.injEq] at hu
    subst hu
    exact ⟨i, t, ht, hkey, hl⟩
  · rintro ⟨i, t, ht, rfl, hl⟩
    rw [pending, h.live i t ht hl, Option.bind_some, ht, Option.any_some, hl]

theorem Scheduled.task?_eq {s s' : RefreshManager K} {key : K} (h : s.Scheduled s' key) (i : ℕ) :
    ∃ new, new.key = key ∧ new.live = true ∧ new.finished = false ∧
      s'.task? i = if i = s.created.length then some new else s.task? i := by
  obtain ⟨diagnostics, reason, hcreated⟩ := h.task
  refine ⟨⟨key, diagnostics, reason, .created, false, false⟩, rfl, rfl, rfl, ?_⟩
  rw [task?, task?, hcreated]
  by_cases hi : i = s.created.length
  · rw [if_pos hi, hi, List.getElem?_concat_length]
  · rw [if_neg hi, List.getElem?_append]
    split
    · rfl
    · rename_i hge
      have hlen : s.created.length < i := by omega
      rw [List.getElem?_eq_none (by simp; omega), List.getElem?_eq_none (by omega)]

theorem Sound.scheduled {s s' : RefreshManager K} {key : K} (h : s.Sound)
    (hs : s.Scheduled s' key) : s'.Sound := by
  have hnone : ∀ i t, s.task? i = some t → t.live = true → t.key ≠ key := by
    intro i t ht hl hkey
    have hp := (h.pending_iff key).mpr ⟨i, t, ht, hkey, hl⟩
    rw [hs.free] at hp
    cases hp
  have hlt : ∀ i t, s.task? i = some t → i < s.created.length :=
    fun i t ht => (List.getElem?_eq_some_iff.mp ht).1
  refine ⟨fun k i hi => ?_, fun i t ht hl => ?_, fun i j t u ht hu hkey hl => ?_⟩
  · obtain ⟨new, hnew, -, hfin, htask⟩ := hs.task?_eq i
    rw [hs.tasks] at hi
    rcases Dict.get?_set_cases hi with ⟨rfl, rfl⟩ | hold
    · exact ⟨new, by rw [htask, if_pos rfl], hnew, hfin⟩
    · obtain ⟨t, ht, hkey, hfin⟩ := h.registered k i hold
      exact ⟨t, by rw [htask, if_neg (Nat.ne_of_lt (hlt i t ht)), ht], hkey, hfin⟩
  · obtain ⟨new, hnew, -, -, htask⟩ := hs.task?_eq i
    rw [hs.tasks]
    by_cases hi : i = s.created.length
    · rw [htask, if_pos hi, Option.some.injEq] at ht
      subst ht
      rw [hnew, Dict.get?_set_self, hi]
    · rw [htask, if_neg hi] at ht
      rw [Dict.get?_set_ne _ _ (hnone i t ht hl)]
      exact h.live i t ht hl
  · obtain ⟨new, hnew, -, -, htask⟩ := hs.task?_eq i
    obtain ⟨new', hnew', -, -, htask'⟩ := hs.task?_eq j
    have hj : j ≤ s.created.length := by
      by_cases hj : j = s.created.length
      · exact hj.le
      · rw [htask', if_neg hj] at hu
        exact (hlt j u hu).le
    by_cases hi : i = s.created.length
    · omega
    · rw [htask, if_neg hi] at ht
      by_cases hj : j = s.created.length
      · rw [htask', if_pos hj, Option.some.injEq] at hu
        subst hu
        exact absurd (hkey.trans hnew') (hnone i t ht hl)
      · rw [htask', if_neg hj] at hu
        exact h.newest i j t u ht hu hkey hl

theorem Sound.step {s s' : RefreshManager K} {l : RefreshLabel K V} (h : s.Sound)
    (hs : s.step l = some s') : s'.Sound := by
  cases step_effect hs with
  | aside hq _ _ => exact h.quiet hq
  | finished i t ht hdead hresult => exact hresult ▸ h.finish ht hdead
  | scheduled key hscheduled => exact h.scheduled hscheduled
  | entered call hresult => exact hresult ▸ h.quiet (.enter s call)
  | moved _ _ _ _ hq _ _ _ _ _ _ => exact h.quiet hq

theorem Sound.run {s : RefreshManager K} {ls : List (RefreshLabel K V)}
    (h : Run RefreshManager.step .new ls s) : s.Sound :=
  h.invariant Sound (fun _ _ _ _ hs hstep => hs.step hstep) Sound.new

/-- Whether the last refresh of `key` is live, as a registry that is never cleaned would tell. -/
def refreshing (s : RefreshManager K) (key : K) : Bool :=
  (s.created.reverse.find? fun task => decide (task.key = key)).any RefreshTask.live

theorem Sound.pending_eq {s : RefreshManager K} (h : s.Sound) (key : K) :
    s.pending key = s.refreshing key := by
  rw [Bool.eq_iff_iff, h.pending_iff]
  have hlast : ∀ b, s.created.reverse.find? (fun t => decide (t.key = key)) = some b →
      b.key = key ∧ ∃ m, s.task? m = some b ∧
        ∀ i t, s.task? i = some t → t.key = key → i ≤ m := by
    intro b hb
    obtain ⟨hkey, later, earlier, hsplit, hother⟩ := List.find?_eq_some_iff_append.mp hb
    have hcreated : s.created = earlier.reverse ++ b :: later.reverse := by
      rw [← List.reverse_reverse s.created, hsplit]
      simp
    refine ⟨by simpa using hkey, earlier.length, by simp [task?, hcreated], ?_⟩
    intro i t ht htkey
    by_contra hlt
    rw [task?, hcreated, List.getElem?_append_right (by simp; omega), List.length_reverse] at ht
    obtain ⟨n, hn⟩ : ∃ n, i - earlier.length = n + 1 := ⟨i - earlier.length - 1, by omega⟩
    rw [hn, List.getElem?_cons_succ] at ht
    have hmem : t ∈ later := List.mem_reverse.mp (List.mem_of_getElem? ht)
    have := hother t hmem
    simp [htkey] at this
  constructor
  · rintro ⟨i, t, ht, hkey, hl⟩
    cases hb : s.created.reverse.find? fun t => decide (t.key = key) with
    | none =>
      rw [List.find?_eq_none] at hb
      have := hb t (List.mem_reverse.mpr (List.mem_of_getElem? ht))
      simp [hkey] at this
    | some b =>
      obtain ⟨hbkey, m, hm, hmax⟩ := hlast b hb
      have hle := hmax i t ht hkey
      have hge := h.newest i m t b ht hm (hkey.trans hbkey.symm) hl
      have hsame : i = m := by omega
      subst hsame
      rw [ht, Option.some.injEq] at hm
      rw [refreshing, hb, Option.any_some, ← hm, hl]
  · intro hr
    rw [refreshing, Option.any_eq_true] at hr
    obtain ⟨b, hb, hl⟩ := hr
    obtain ⟨hbkey, m, hm, -⟩ := hlast b hb
    exact ⟨m, b, hm, hbkey, hl⟩

/-- Whatever the callbacks have not yet removed, a refresh is scheduled exactly when none of its
key is live, and no two of one key ever are. -/
theorem refreshes_deduplicated {s : RefreshManager K} {ls : List (RefreshLabel K V)}
    (h : Run step new ls s) :
    (∀ i j t u, s.task? i = some t → s.task? j = some u → t.live = true → u.live = true →
      t.key = u.key → i = j) ∧
    (∀ i t, s.task? i = some t → t.live = true → s.tasks.get? t.key = some i) ∧
    (∀ key i, s.tasks.get? key = some i →
      ∃ t, s.task? i = some t ∧ t.key = key ∧ t.finished = false) ∧
    ∀ key diagnostics reason snapshotId,
      (s.schedule key diagnostics reason snapshotId).1 = !s.closed ∧
      (s.schedule key diagnostics reason snapshotId).2.created.length =
        s.created.length + (if s.closed || s.refreshing key then 0 else 1) ∧
      (s.closed = false → ∃ i t,
        (s.schedule key diagnostics reason snapshotId).2.task? i = some t ∧
          t.key = key ∧ t.live = true) := by
  have hsound := Sound.run h
  refine ⟨fun i j t u ht hu htl hul hkey => ?_, hsound.live, hsound.registered,
    fun key diagnostics reason snapshotId => ⟨?_, ?_, fun hopen => ?_⟩⟩
  · have hle := hsound.newest i j t u ht hu hkey htl
    have hge := hsound.newest j i u t hu ht hkey.symm hul
    omega
  · cases hc : s.closed <;> cases hp : s.pending key <;> simp [schedule, hc, hp]
  · rw [← hsound.pending_eq key]
    cases hc : s.closed <;> cases hp : s.pending key <;> simp [schedule, hc, hp]
  · obtain ⟨hs, hnot⟩ | hs := schedule_cases s key diagnostics reason snapshotId
    · rw [hs]
      have hp : s.pending key = true := hnot.resolve_left (by simp [hopen])
      obtain ⟨i, t, ht, hkey, hl⟩ := (hsound.pending_iff key).mp hp
      exact ⟨i, t, ht, hkey, hl⟩
    · obtain ⟨new, hkey, hl, -, htask⟩ := hs.task?_eq s.created.length
      exact ⟨s.created.length, new, by rw [htask, if_pos rfl], hkey, hl⟩

/-- One refresh fails, a second one of the same key begins before the callback of the first, and the
manager is closed under it. -/
def twoRefreshes : List (RefreshLabel ℕ ℕ) :=
  [.schedule 0 0 "stale" "first", .start 0, .resume 0 (.raised (.other "ValueError")),
    .schedule 0 0 "stale" "second", .finish 0, .start 1]

theorem refreshes_deduplicated_two :
    ∃ s, exec step new twoRefreshes = some s ∧
      (s.schedule 0 1 "stale" "third").2.created.length = 2 := by
  refine ⟨_, rfl, ?_⟩
  have hrun : Run step new twoRefreshes _ := exec_run rfl
  exact ((refreshes_deduplicated hrun).2.2.2 0 1 "stale" "third").2.1

/-! ## `wait`, `close` and cancellation -/

/-- No task is live. -/
def Idle (s : RefreshManager K) : Prop := ∀ i t, s.task? i = some t → t.live = false

theorem Follows.idle {s s' : RefreshManager K} (h : s.Follows s') (hs : s.Idle) : s'.Idle := by
  intro i u hu
  obtain ⟨t, ht, hadv⟩ := h.before hu
  cases hl : u.live with
  | false => rfl
  | true =>
    have := hadv.live hl
    rw [hs i t ht] at this
    cases this

theorem Sound.idle {s : RefreshManager K} (h : s.Sound) (hempty : s.tasks.entries.isEmpty = true) :
    s.Idle := by
  intro i t ht
  cases hl : t.live with
  | false => rfl
  | true =>
    have hreg := Dict.mem_entries.mpr (h.live i t ht hl)
    rw [List.isEmpty_iff.mp hempty] at hreg
    cases hreg

/-- What a `gather` over the registry waits for. -/
def Covers (s : RefreshManager K) : RefreshCallPoint → Prop
  | .gathering awaited => ∀ i t, s.task? i = some t → t.live = true → i ∈ awaited
  | .returned | .raised => s.Idle

theorem Sound.covers {s : RefreshManager K} (h : s.Sound) : s.Covers s.gather := by
  unfold gather
  split
  · rename_i hempty
    exact h.idle hempty
  · intro i t ht hl
    exact List.mem_map.mpr ⟨_, Dict.mem_entries.mpr (h.live i t ht hl), rfl⟩

theorem Follows.covers {s s' : RefreshManager K} (h : s.Follows s') {point : RefreshCallPoint}
    (hs : s.Covers point) : s'.Covers point := by
  cases point with
  | gathering awaited =>
    intro i u hu hl
    obtain ⟨t, ht, hadv⟩ := h.before hu
    exact hs i t ht (hadv.live hl)
  | returned => exact h.idle hs
  | raised => exact h.idle hs

/-- A caller whose tasks are all done leaves no live task behind. -/
theorem Covers.done {s : RefreshManager K} {awaited : List ℕ} (h : s.Covers (.gathering awaited))
    (hdone : awaited.all s.done = true) : s.Idle := by
  intro i t ht
  cases hl : t.live with
  | false => rfl
  | true =>
    have hmem := List.all_eq_true.mp hdone i (h i t ht hl)
    rw [RefreshManager.done, ht, Option.any_some, hl] at hmem
    cases hmem

/-- Once `close` is called the manager is closed, and its `gather` covers every live task. -/
def Closing (s : RefreshManager K) : Prop :=
  ∀ (w : ℕ) (caller : RefreshCaller) (cancel : Bool), s.callers[w]? = some caller →
    caller.call = .close cancel → s.closed = true ∧ s.Covers caller.point

/-- A step that neither opens nor moves a caller. -/
theorem Closing.follows {s s' : RefreshManager K} (h : s.Closing) (hf : s.Follows s')
    (hclosed : s'.closed = s.closed) (hcallers : s'.callers = s.callers) : s'.Closing := by
  intro w caller cancel hc hcall
  rw [hcallers] at hc
  obtain ⟨hcl, hcov⟩ := h w caller cancel hc hcall
  exact ⟨by rw [hclosed, hcl], hf.covers hcov⟩

/-- A step that moves one caller. -/
theorem Closing.moved {s s' : RefreshManager K} (h : s.Closing) (hf : s.Follows s')
    (hclosed : s'.closed = s.closed) {w : ℕ} {before after : RefreshCaller}
    (hw : s.callers[w]? = some before) (hcallers : s'.callers = s.callers.set w after)
    (hcall : after.call = before.call)
    (hafter : ∀ cancel, before.call = .close cancel → s.Covers before.point →
      s.Covers after.point) : s'.Closing := by
  intro v caller cancel hc hclose
  rw [hcallers, List.getElem?_set] at hc
  split at hc
  · rename_i hv
    subst hv
    rw [Option.ite_none_right_eq_some, Option.some.injEq] at hc
    obtain ⟨-, rfl⟩ := hc
    rw [hcall] at hclose
    obtain ⟨hcl, hcov⟩ := h w before cancel hw hclose
    exact ⟨by rw [hclosed, hcl], hf.covers (hafter cancel hclose hcov)⟩
  · obtain ⟨hcl, hcov⟩ := h v caller cancel hc hclose
    exact ⟨by rw [hclosed, hcl], hf.covers hcov⟩

theorem closed_shut (s : RefreshManager K) (cancel : Bool) :
    (s.shut (.close cancel)).closed = true := by
  cases cancel <;> rfl

theorem Closing.enter {s : RefreshManager K} (h : s.Closing) (hs : s.Sound) (call : RefreshCall) :
    (s.enter call).Closing := by
  intro w caller cancel hc hcall
  have hcallers : (s.enter call).callers =
      s.callers ++ [⟨call, (s.shut call).gather, false⟩] := rfl
  rw [hcallers, List.getElem?_append] at hc
  split at hc
  · obtain ⟨hcl, hcov⟩ := h w caller cancel hc hcall
    refine ⟨?_, (Quiet.enter s call).covers hcov⟩
    cases call with
    | wait => exact hcl
    | close cancel' => exact closed_shut s cancel'
  · obtain rfl : caller = ⟨call, (s.shut call).gather, false⟩ := by
      simpa using (List.mem_of_getElem? hc)
    subst hcall
    have hquiet : (s.enter (.close cancel)).Quiet (s.shut (.close cancel)) := .of_created rfl rfl
    have hsound : (s.shut (.close cancel)).Sound := (hs.quiet (.enter s _)).quiet hquiet
    have hback : (s.shut (.close cancel)).Quiet (s.enter (.close cancel)) := .of_created rfl rfl
    exact ⟨closed_shut s cancel, hback.covers hsound.covers⟩

theorem Closing.step {s s' : RefreshManager K} {l : RefreshLabel K V} (h : s.Closing)
    (hsound : s.Sound) (hs : s.step l = some s') : s'.Closing := by
  cases step_effect hs with
  | aside hq hclosed hcallers => exact h.follows hq.toFollows hclosed hcallers
  | finished i t ht _ hresult =>
    subst hresult
    exact h.follows (.finish ht) rfl rfl
  | scheduled key hscheduled =>
    intro w caller cancel hc hcall
    rw [hscheduled.callers] at hc
    have hclosed := (h w caller cancel hc hcall).1
    rw [hscheduled.closed] at hclosed
    cases hclosed
  | entered call hresult => exact hresult ▸ h.enter hsound call
  | moved w before after awaited hq hclosed hw hgathering hcallers hcall hpoint =>
    refine h.moved hq.toFollows hclosed hw hcallers hcall fun cancel hclose hcov => ?_
    rcases hpoint with hpoint | ⟨hpoint, hdone⟩
    · rwa [hpoint]
    · rw [hgathering] at hcov
      have hidle : s.Idle := hcov.done hdone
      simp only [hpoint, proceed, hclose]
      split <;> exact hidle

theorem Closing.run {s : RefreshManager K} {ls : List (RefreshLabel K V)}
    (h : Run RefreshManager.step .new ls s) : s.Closing := by
  have hboth : s.Sound ∧ s.Closing := by
    refine h.invariant (fun s => s.Sound ∧ s.Closing) (fun s l t _ hs hstep => ?_) ⟨.new, ?_⟩
    · exact ⟨hs.1.step hstep, hs.2.step hs.1 hstep⟩
    · intro w caller cancel hc
      simp [RefreshManager.new] at hc
  exact hboth.2

/-- A closed manager gets no new task. -/
theorem step_closed {s s' : RefreshManager K} {l : RefreshLabel K V} (h : s.step l = some s')
    (hc : s.closed = true) : s.Follows s' ∧ s'.closed = true := by
  cases step_effect h with
  | aside hq hclosed _ => exact ⟨hq.toFollows, hclosed.trans hc⟩
  | finished i t ht _ hresult => exact hresult ▸ ⟨.finish ht, hc⟩
  | scheduled key hscheduled =>
    rw [hscheduled.closed] at hc
    cases hc
  | entered call hresult =>
    subst hresult
    refine ⟨(Quiet.enter s call).toFollows, ?_⟩
    cases call with
    | wait => exact hc
    | close cancel => exact closed_shut s cancel
  | moved _ _ _ _ hq hclosed _ _ _ _ _ => exact ⟨hq.toFollows, hclosed.trans hc⟩

theorem closed_follows {s t : RefreshManager K} {ls : List (RefreshLabel K V)}
    (h : Run step s ls t) (hc : s.closed = true) : s.Follows t ∧ t.closed = true := by
  induction h with
  | nil s => exact ⟨⟨rfl, fun i t ht => ⟨t, ht, .refl t⟩⟩, hc⟩
  | cons _ hstep _ ih =>
    obtain ⟨hfirst, hclosed⟩ := step_closed hstep hc
    obtain ⟨hrest, hlast⟩ := ih hclosed
    exact ⟨hfirst.trans hrest, hlast⟩

theorem gather_returned {s : RefreshManager K} (h : s.gather = .returned) :
    s.tasks.entries.isEmpty = true := by
  rw [gather] at h
  split at h
  · assumption
  · cases h

/-- A call of `wait` that comes back finds the registry empty. -/
theorem wait_returned {s s' : RefreshManager K} {l : RefreshLabel K V} (h : s.step l = some s')
    {w : ℕ} {caller : RefreshCaller} (hw : s'.callers[w]? = some caller)
    (hcall : caller.call = .wait) (hpoint : caller.point = .returned)
    (hnew : s.callers[w]? ≠ some caller) : s'.tasks.entries.isEmpty = true := by
  cases step_effect h with
  | aside _ _ hcallers =>
    rw [hcallers] at hw
    exact absurd hw hnew
  | finished i t _ _ hresult =>
    subst hresult
    exact absurd hw hnew
  | scheduled key hscheduled =>
    rw [hscheduled.callers] at hw
    exact absurd hw hnew
  | entered call hresult =>
    subst hresult
    have hcallers : (s.enter call).callers =
        s.callers ++ [⟨call, (s.shut call).gather, false⟩] := rfl
    rw [hcallers, List.getElem?_append] at hw
    split at hw
    · exact absurd hw hnew
    · obtain rfl : caller = ⟨call, (s.shut call).gather, false⟩ := by
        simpa using List.mem_of_getElem? hw
      exact gather_returned (s := s.shut call) hpoint
  | moved v before after awaited hq _ hv hgathering hcallers hsame hmoved =>
    rw [hcallers, List.getElem?_set] at hw
    split at hw
    · rw [Option.ite_none_right_eq_some, Option.some.injEq] at hw
      obtain ⟨-, rfl⟩ := hw
      rw [hpoint, hgathering] at hmoved
      have hproceed := (hmoved.resolve_left (by simp)).1
      rw [proceed, ← hsame, hcall] at hproceed
      split at hproceed
      · cases hproceed
      · rw [hq.tasks]
        exact gather_returned hproceed.symm
    · exact absurd hw hnew

/-- Once a `close` has come back, even interrupted, no refresh is live or is ever created again; a
`wait` comes back only to an empty registry, with no live refresh. -/
theorem refreshes_settled {s : RefreshManager K} {ls : List (RefreshLabel K V)}
    (h : Run step new ls s) :
    (∀ (w : ℕ) (caller : RefreshCaller) (cancel : Bool), s.callers[w]? = some caller →
      caller.call = .close cancel → caller.point = .returned ∨ caller.point = .raised →
      ∀ (ms : List (RefreshLabel K V)) (t : RefreshManager K), Run step s ms t →
        t.created.length = s.created.length ∧ t.Idle) ∧
    ∀ (l : RefreshLabel K V) (s' : RefreshManager K) (w : ℕ) (caller : RefreshCaller),
      s.step l = some s' → s'.callers[w]? = some caller → caller.call = .wait →
      caller.point = .returned → s.callers[w]? ≠ some caller →
      s'.tasks.entries = [] ∧ s'.Idle := by
  constructor
  · intro w caller cancel hw hcall hpoint ms t hrun
    obtain ⟨hclosed, hcov⟩ := Closing.run h w caller cancel hw hcall
    have hidle : s.Idle := by
      rcases hpoint with hpoint | hpoint <;> rw [hpoint] at hcov <;> exact hcov
    have hfollows := (closed_follows hrun hclosed).1
    exact ⟨hfollows.length, hfollows.idle hidle⟩
  · intro l s' w caller hstep hw hcall hpoint hnew
    have hempty := wait_returned hstep hw hcall hpoint hnew
    exact ⟨List.isEmpty_iff.mp hempty, ((Sound.run h).step hstep).idle hempty⟩

/-- `close` comes back when the second refresh has ended. -/
def closedUnder : List (RefreshLabel ℕ ℕ) :=
  twoRefreshes ++ [.call .wait, .call (.close false), .resume 1 .cancelled, .finish 1, .turn 1]

theorem refreshes_settled_two :
    ∃ s, exec step new closedUnder = some s ∧
      ∀ (ms : List (RefreshLabel ℕ ℕ)) (t : RefreshManager ℕ), Run step s ms t →
        t.created.length = 2 ∧ t.Idle := by
  refine ⟨_, rfl, ?_⟩
  have hrun : Run step new closedUnder _ := exec_run rfl
  exact (refreshes_settled hrun).1 1 _ false rfl rfl (.inl rfl)

end RefreshManager
end Coalestra
