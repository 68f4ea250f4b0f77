import Coalestra.Resilience.CircuitBreaker

/-! # Source executor

The circuit side of `orchestration/source_executor.py`: where the three executors call `before_call`,
which `record_*` their `except` ladders choose, and `run_with_retry` between the two. Sources, their
dependencies, payload copies, dependency resolution and freshness checks answer or raise as they
like; an attempt can be cancelled wherever it waits. `before_call` and the recorders never wait,
because the lock of the breaker is never held across an `await`. Sinks do not raise. -/

namespace Coalestra
set_option autoImplicit false
set_option maxHeartbeats 250000

/-- What is raised, by the first class of the ladders that it is an instance of. `retryable` is the
answer of `is_retryable` for a class that no ladder names. -/
inductive Raised
  | cancelled
  | deadlineExceeded
  | queueTimeout
  | circuitOpen
  | dependencyCycle
  | dependencyResolution
  | protocol
  | other (retryable : Bool)
  deriving DecidableEq, Repr

/-- `SourceCalls.is_retryable`; a cancellation is not an `Exception`. -/
def Raised.retryable : Raised → Bool
  | .other retryable => retryable
  | _ => false

/-- Which of the three executors makes the attempt. -/
inductive ExecutorKind
  | single
  | batch
  | derived
  deriving DecidableEq, Repr

/-! ## The ladders -/

/-- `_attempt_single_source.fetch_one`. -/
def fetchOneOutcome : Raised → Option CircuitOutcome
  | .cancelled => some .abandoned
  | .deadlineExceeded => some .skipped
  | .queueTimeout => some .skipped
  | .circuitOpen => none
  | _ => some .failure

/-- The second `try` of `_attempt_batch_source`. -/
def batchOutcome : Raised → Option CircuitOutcome
  | .cancelled => some .abandoned
  | .deadlineExceeded => some .skipped
  | .queueTimeout => some .skipped
  | _ => some .failure

/-- `_attempt_derived_source.derive_one`. -/
def deriveOneOutcome : Raised → Option CircuitOutcome
  | .cancelled => some .abandoned
  | .deadlineExceeded => some .skipped
  | .queueTimeout => some .skipped
  | .circuitOpen => none
  | .dependencyCycle => none
  | .dependencyResolution => none
  | _ => some .failure

def ExecutorKind.outcome : ExecutorKind → Raised → Option CircuitOutcome
  | .single => fetchOneOutcome
  | .batch => batchOutcome
  | .derived => deriveOneOutcome

/-! ## Attempts -/

/-- Where an attempt waits. -/
inductive SourcePhase
  | resolving
  | isolating
  | calling (attempt : ℕ)
  | finished
  deriving DecidableEq, Repr

/-- One attempt. `groups` are its circuit groups with a representative each, `admitted` those whose
`before_call` returned, and `recorded` the identities of its `record_*` calls so far. -/
structure SourceTask (K : Type) where
  kind : ExecutorKind
  source : String
  policy : CircuitBreakerPolicy
  maxAttempts : ℕ
  groups : List (K × List K)
  admitted : List (K × List K)
  phase : SourcePhase
  recorded : List CircuitIdentity

structure Executor (K : Type) where
  circuits : Circuits
  tasks : List (SourceTask K)

/-- What one `fetch_once`, `derive_once` or `fetch_many_once` comes to, with the freshness checks of
what it returned: `payload_is_fresh` answers or raises. For a batch, `returned` are the keys with a
valid payload. -/
inductive OperationResult (K : Type)
  | raised (error : Raised)
  | payload (fresh : Except Raised Bool)
  | payloads (returned : List K) (fresh : K → Except Raised Bool)

inductive ExecutorEvent (K : Type)
  | fetchOne (source : String) (policy : CircuitBreakerPolicy) (maxAttempts : ℕ) (key : K) (now : ℚ)
  | fetchMany (source : String) (policy : CircuitBreakerPolicy) (maxAttempts : ℕ) (keys : List K)
      (now : ℚ)
  | deriveOne (source : String) (policy : CircuitBreakerPolicy) (maxAttempts : ℕ) (key : K)
      (ancestry : List K) (dependencies : Except Raised (List (Option K))) (now : ℚ)
  | resolved (i : ℕ) (outcome : Except Raised (List K)) (now : ℚ)
  | isolated (i : ℕ) (outcome : Except Raised Unit) (now : ℚ)
  | operation (i : ℕ) (result : OperationResult K) (giveUp : Bool) (now : ℚ)
  | cancel (i : ℕ) (now : ℚ)

def freshnessOutcome (fresh : Bool) : CircuitOutcome := if fresh then .success else .failure

namespace Executor
variable {K : Type} [DecidableEq K] [KeyText K]

/-- `SourceCatalog.circuit_groups`. -/
def circuitGroups (source : String) (scope : CircuitScope) (keys : List K) : List (K × List K) :=
  let grouped := keys.foldl (fun (grouped : Dict CircuitIdentity (List K)) key =>
    let identity := identityFor source key scope
    grouped.set identity ((grouped.get? identity).getD [] ++ [key])) .empty
  grouped.values.filterMap fun items => items.head?.map fun representative => (representative, items)

/-- The identities that the representatives of some groups stand for. -/
def identities (source : String) (scope : CircuitScope) (groups : List (K × List K)) :
    List CircuitIdentity :=
  groups.map fun group => identityFor source group.1 scope

/-- One `record_*` for each of the identities. -/
def recordAll (policy : CircuitBreakerPolicy) (now : ℚ) (outcome : CircuitOutcome) :
    List CircuitIdentity → Circuits → Circuits
  | [], b => b
  | identity :: rest, b => recordAll policy now outcome rest (b.record identity policy now outcome)

end Executor

namespace SourceTask
variable {K : Type} [DecidableEq K] [KeyText K]

def identitiesOf (task : SourceTask K) (groups : List (K × List K)) : List CircuitIdentity :=
  Executor.identities task.source task.policy.scope groups

/-- The groups a ladder reports for: `fetch_one` and `derive_one` have one key, a batch its active
groups. -/
def reportedGroups (task : SourceTask K) : List (K × List K) :=
  match task.kind with
  | .batch => task.admitted
  | _ => task.groups

/-- The `except` ladder of the executor. -/
def handle (task : SourceTask K) (now : ℚ) (error : Raised) (b : Circuits) :
    Circuits × SourceTask K :=
  match task.kind.outcome error with
  | none => (b, { task with phase := .finished })
  | some outcome =>
    let reported := task.identitiesOf task.reportedGroups
    (Executor.recordAll task.policy now outcome reported b,
      { task with phase := .finished, recorded := task.recorded ++ reported })

/-- The end of an attempt with one key: `record_payload_circuit_outcome`. -/
def onPayload (task : SourceTask K) (now : ℚ) (fresh : Except Raised Bool) (b : Circuits) :
    Circuits × SourceTask K :=
  match fresh with
  | .error error => task.handle now error b
  | .ok fresh =>
    let reported := task.identitiesOf task.groups
    (Executor.recordAll task.policy now (freshnessOutcome fresh) reported b,
      { task with phase := .finished, recorded := task.recorded ++ reported })

end SourceTask

namespace Executor
variable {K : Type} [DecidableEq K] [KeyText K]

/-- `any(key in returned and payload_is_fresh(key, payloads[key]) for key in grouped_keys)`. -/
def hasFreshValue (returned : List K) (fresh : K → Except Raised Bool) :
    List K → Except Raised Bool
  | [] => .ok false
  | key :: rest =>
    if key ∈ returned then
      match fresh key with
      | .error error => .error error
      | .ok true => .ok true
      | .ok false => hasFreshValue returned fresh rest
    else hasFreshValue returned fresh rest

/-- The loop of `_attempt_batch_source` over its active groups: the circuits, the identities it
recorded and what ended it early. -/
def recordGroups (source : String) (policy : CircuitBreakerPolicy) (now : ℚ) (returned : List K)
    (fresh : K → Except Raised Bool) :
    List (K × List K) → Circuits → Circuits × List CircuitIdentity × Except Raised Unit
  | [], b => (b, [], .ok ())
  | group :: rest, b =>
    match hasFreshValue returned fresh group.2 with
    | .error error => (b, [], .error error)
    | .ok isFresh =>
      let identity := identityFor source group.1 policy.scope
      let (b, recorded, ended) := recordGroups source policy now returned fresh rest
        (b.record identity policy now (freshnessOutcome isFresh))
      (b, identity :: recorded, ended)

/-- The loop of `_attempt_batch_source` over its circuit groups: the circuits and the active
groups. -/
def admitGroups (source : String) (policy : CircuitBreakerPolicy) (now : ℚ) :
    List (K × List K) → Circuits → Circuits × List (K × List K)
  | [], b => (b, [])
  | group :: rest, b =>
    let (b, admitted) := b.beforeCall (identityFor source group.1 policy.scope) policy now
    let (b, active) := admitGroups source policy now rest b
    (b, if admitted then group :: active else active)

end Executor

namespace SourceTask
variable {K : Type} [DecidableEq K] [KeyText K]

/-- The end of a batch that returned a mapping. -/
def onPayloads (task : SourceTask K) (now : ℚ) (returned : List K) (fresh : K → Except Raised Bool)
    (b : Circuits) : Circuits × SourceTask K :=
  let (b, recorded, ended) :=
    Executor.recordGroups task.source task.policy now returned fresh task.admitted b
  let task := { task with recorded := task.recorded ++ recorded }
  match ended with
  | .error error => task.handle now error b
  | .ok () => (b, { task with phase := .finished })

/-- `before_call` of an attempt with one key. `record_circuit_open` records nothing in the circuit. -/
def enter (task : SourceTask K) (now : ℚ) (b : Circuits) : Circuits × SourceTask K :=
  match task.groups with
  | [] => (b, { task with phase := .finished })
  | group :: _ =>
    let (b, admitted) :=
      b.beforeCall (identityFor task.source group.1 task.policy.scope) task.policy now
    if admitted then (b, { task with admitted := [group], phase := .calling 1 })
    else task.handle now .circuitOpen b

/-- The end of one turn of `run_with_retry`; `giveUp` when the deadline leaves no room for the
backoff. -/
def onOperation (task : SourceTask K) (attempt : ℕ) (result : OperationResult K) (giveUp : Bool)
    (now : ℚ) (b : Circuits) : Option (Circuits × SourceTask K) :=
  match result with
  | .raised error =>
    if attempt < task.maxAttempts ∧ error.retryable = true ∧ giveUp = false then
      some (b, { task with phase := .calling (attempt + 1) })
    else some (task.handle now error b)
  | .payload fresh =>
    match task.kind with
    | .batch => none
    | _ => some (task.onPayload now fresh b)
  | .payloads returned fresh =>
    match task.kind with
    | .batch => some (task.onPayloads now returned fresh b)
    | _ => none

end SourceTask

namespace Executor
variable {K : Type} [DecidableEq K] [KeyText K]

/-- The checks of `derive_one` on what `dependencies` returned; `none` is not a `ResourceKey`. -/
def checkDependencies (path : List K) : List (Option K) → Except Raised Unit
  | [] => .ok ()
  | none :: _ => .error .protocol
  | some dependency :: rest =>
    if dependency ∈ path then .error .dependencyCycle else checkDependencies path rest

def newTask (kind : ExecutorKind) (source : String) (policy : CircuitBreakerPolicy) (maxAttempts : ℕ)
    (groups : List (K × List K)) (phase : SourcePhase) : SourceTask K :=
  ⟨kind, source, policy, maxAttempts, groups, [], phase, []⟩

def startBatch (source : String) (policy : CircuitBreakerPolicy) (maxAttempts : ℕ) (keys : List K)
    (now : ℚ) (b : Circuits) : Circuits × SourceTask K :=
  let groups := circuitGroups source policy.scope (Dict.fromKeys keys)
  let (b, active) := admitGroups source policy now groups b
  (b, { newTask .batch source policy maxAttempts groups
      (if active = [] then .finished else .calling 1) with admitted := active })

def startDerived (source : String) (policy : CircuitBreakerPolicy) (maxAttempts : ℕ) (key : K)
    (ancestry : List K) (dependencies : Except Raised (List (Option K))) (now : ℚ) (b : Circuits) :
    Circuits × SourceTask K :=
  let task := newTask .derived source policy maxAttempts [(key, [key])] .resolving
  match dependencies.bind fun dependencies =>
      checkDependencies (ancestry ++ [key]) (Dict.fromKeys dependencies) with
  | .error error => task.handle now error b
  | .ok () => (b, task)

/-- A new attempt. -/
def spawned (s : Executor K) (r : Circuits × SourceTask K) : Executor K :=
  ⟨r.1, s.tasks ++ [r.2]⟩

/-- A step of attempt `i`. -/
def stepped (s : Executor K) (i : ℕ) (r : Circuits × SourceTask K) : Executor K :=
  ⟨r.1, s.tasks.set i r.2⟩

/-- A step of a waiting attempt. -/
def onTask (task : SourceTask K) (b : Circuits) : ExecutorEvent K → Option (Circuits × SourceTask K)
  | .resolved _ outcome now =>
    match task.phase with
    | .resolving =>
      match outcome with
      | .error error => some (task.handle now error b)
      | .ok [] => some (b, { task with phase := .isolating })
      | .ok _ => some (task.handle now .dependencyResolution b)
    | _ => none
  | .isolated _ outcome now =>
    match task.phase with
    | .isolating =>
      match outcome with
      | .error error => some (task.handle now error b)
      | .ok () => some (task.enter now b)
    | _ => none
  | .operation _ result giveUp now =>
    match task.phase with
    | .calling attempt => task.onOperation attempt result giveUp now b
    | _ => none
  | .cancel _ now =>
    match task.phase with
    | .finished => none
    | _ => some (task.handle now .cancelled b)
  | _ => none

def step (s : Executor K) (e : ExecutorEvent K) : Option (Executor K) :=
  match e with
  | .fetchOne source policy maxAttempts key now =>
    some (s.spawned ((newTask .single source policy maxAttempts [(key, [key])] .finished).enter now
      s.circuits))
  | .fetchMany source policy maxAttempts keys now =>
    some (s.spawned (startBatch source policy maxAttempts keys now s.circuits))
  | .deriveOne source policy maxAttempts key ancestry dependencies now =>
    some (s.spawned (startDerived source policy maxAttempts key ancestry dependencies now s.circuits))
  | .resolved i _ _ =>
    (s.tasks[i]?).bind fun task => (onTask task s.circuits e).map (s.stepped i)
  | .isolated i _ _ =>
    (s.tasks[i]?).bind fun task => (onTask task s.circuits e).map (s.stepped i)
  | .operation i _ _ _ =>
    (s.tasks[i]?).bind fun task => (onTask task s.circuits e).map (s.stepped i)
  | .cancel i _ =>
    (s.tasks[i]?).bind fun task => (onTask task s.circuits e).map (s.stepped i)

def new : Executor K := ⟨.empty, []⟩

end Executor
end Coalestra
