import Coalestra.Lib.Runs
import Coalestra.Orchestration.Runtime

/-! # The acquisition machine

All coroutines of one builder: `_resolve_many`, `_resolve_owned_keys`, the units of work of
`SourceExecutor.attempt`, `SingleFlight._produce` and background refreshes. Every coroutine is a
frame with its arguments, its locals and the point where it stands; a move takes one frame to its
next point. A move is never longer than the code between two awaits. It is shorter where a loop
body has no await: such a loop takes one move a turn, so the machine has every interleaving of the
event loop. -/

namespace Coalestra
set_option autoImplicit false
set_option maxHeartbeats 250000

/-! ## Frames -/

/-- The deadline of the `FetchContext` and the arguments every call passes down. `task` is the
`_produce` task that runs the frame, none for the callers and the refreshes. -/
structure Scope (K : Type) where
  deadline : Option ℚ
  runtime : ℕ
  ancestry : List K
  localOwned : List K
  task : Option ℕ

/-- Locals of `_resolve_many`. -/
structure ManyLocals (K V : Type) where
  values : Dict K (SnapshotValue K V)
  errors : Dict K (Error K)
  staleCandidates : Dict K (SnapshotValue K V)
  pending : List K
  results : Dict K (ResolutionResult K V)

def ManyLocals.new {K V : Type} [DecidableEq K] : ManyLocals K V :=
  ⟨.empty, .empty, .empty, [], .empty⟩

/-- Where `_resolve_many` stands. -/
inductive ManyPhase (K V : Type)
  | start
  | reading (cacheKeys : List K) (now : ℚ)
  | isolating (lookups : List (K × CacheLookup K V))
  | serving (lookups : List (K × CacheLookup K V))
  | copying (key : K) (copy : SnapshotValue K V) (rest : List (K × CacheLookup K V))
  | resolving (child : ℕ) (shared : List K)
  | reserving (shared : List K)
  | joining (futures : List (K × ℕ))
  | collecting (rest : List K)
  | fallback (key : K) (copy : SnapshotValue K V) (rest : List K)
  | done
  | raised (error : Error K)

/-- Locals of `_resolve_owned_keys`. -/
structure OwnedLocals (K V : Type) where
  unresolved : List K
  failures : Dict K (List SourceFailure)
  bestStale : Dict K (SnapshotValue K V)
  resolved : Dict K (ResolutionResult K V)

def OwnedLocals.new {K V : Type} [DecidableEq K] (keys : List K) : OwnedLocals K V :=
  ⟨keys, .empty, .empty, .empty⟩

/-- `failures[key].append(failure)`. -/
def OwnedLocals.fail {K V : Type} [DecidableEq K] (l : OwnedLocals K V) (key : K)
    (failure : SourceFailure) : OwnedLocals K V :=
  { l with failures := l.failures.set key ((l.failures.get? key).getD [] ++ [failure]) }

/-- `resolved[key] = ResolutionResult(error=ResourceResolutionError(key, failures[key]))`. -/
def OwnedLocals.giveUp {K V : Type} [DecidableEq K] (l : OwnedLocals K V) (key : K) :
    OwnedLocals K V :=
  let error := Error.resourceResolution key ((l.failures.get? key).getD [])
  { l with resolved := l.resolved.set key (.error error) }

/-- `unresolved = [key for key in unresolved if key not in resolved]`. -/
def OwnedLocals.settle {K V : Type} [DecidableEq K] (l : OwnedLocals K V) : OwnedLocals K V :=
  { l with unresolved := l.unresolved.filter fun key => decide (key ∉ l.resolved.keys) }

/-- Where `_resolve_owned_keys` stands; `sources` are the sources not visited yet. -/
inductive OwnedPhase (K V : Type)
  | visiting (sources : List (Source K))
  | attempting (source : Source K) (sources : List (Source K)) (candidates : List K)
      (queue : List (List K)) (children : List ℕ)
  | harvesting (source : Source K) (sources : List (Source K))
      (attempts : List (K × SourceAttempt K V)) (rest : List K) (fresh : List (SnapshotValue K V))
  | writing (sources : List (Source K)) (fresh : List (SnapshotValue K V))
  | written (sources : List (Source K)) (superseded : List (K × SnapshotValue K V))
  | superseding (sources : List (Source K)) (superseded : List (K × SnapshotValue K V))
  | copyingWinner (sources : List (Source K)) (key : K) (copy : SnapshotValue K V)
      (rest : List (K × SnapshotValue K V))
  | finishing (rest : List K) (staleToCache : List (SnapshotValue K V))
  | staleWriting (staleToCache : List (SnapshotValue K V))
  | staleWritten
  | done
  | raised (error : Error K)

/-- Where one unit of work stands: `derive_one`, `fetch_one` or `attempt_chunk`. -/
inductive WorkPhase (K V : Type)
  | start
  | resolving (child : ℕ)
  | isolating (values : Dict K (SnapshotValue K V))
  | calling (versions : Dict K ℕ)
  | done (attempts : List (K × SourceAttempt K V))

/-- Where `_produce` stands. -/
inductive ProducePhase (K V : Type)
  | start
  | running (child : ℕ)
  | completing (rest : List K) (outcome : Except (Error K) (Dict K (ResolutionResult K V)))
  | done

/-- Where `_refresh_resource` stands. -/
inductive RefreshPhase (K : Type)
  | reserving
  | joining (futures : List (K × ℕ))
  | done

/-- A coroutine: its arguments, its locals and its point. -/
inductive Body (K V : Type)
  | resolveMany (keys : List K) (l : ManyLocals K V) (p : ManyPhase K V)
  | resolveOwned (keys : List K) (l : OwnedLocals K V) (p : OwnedPhase K V)
  | work (source : Source K) (keys : List K) (p : WorkPhase K V)
  | produce (owned : List K) (settled : Dict K (Except (Error K) (ResolutionResult K V)))
      (p : ProducePhase K V)
  | refresh (key : K) (p : RefreshPhase K)

structure Frame (K V : Type) where
  scope : Scope K
  body : Body K V

/-- What the coroutines share. `tasks` maps a key in flight to its producer, `refreshes` a key to
its last refresh; `revisions` lists the dependency versions of every version handed out. -/
structure Shared (K V : Type) [DecidableEq K] where
  now : ℚ
  revisions : List (Dict K ℕ)
  cache : AsyncMemoryCache K V
  runtimes : List (ResolutionRuntime K V)
  tasks : Dict K ℕ
  refreshes : Dict K ℕ

structure State (K V : Type) [DecidableEq K] extends Shared K V where
  frames : List (Frame K V)

/-- What may happen at an await: it ends, it raises, the source answers, or `gather` delivers the
exception of one future. -/
inductive Event (K V : Type)
  | go
  | raise (fault : Fault)
  | answer (payloads : Dict K (SourcePayload V))
  | failed (key : K)

/-- The outcome of a move: the shared state, the frame at its next point, a started coroutine. -/
structure Step (K V : Type) [DecidableEq K] where
  shared : Shared K V
  body : Body K V
  spawn : Option (Frame K V)

section
variable {K V : Type} [DecidableEq K]

/-- A fault at an await other than a source call; a deadline fires only where there is one. -/
def Scope.admits (c : Scope K) (fault : Fault) : Bool :=
  match fault with
  | .deadline => c.deadline.isSome
  | .other _ _ => true

namespace Shared

def runtime (s : Shared K V) (r : ℕ) : ResolutionRuntime K V := s.runtimes[r]?.getD .new

def setRuntime (s : Shared K V) (r : ℕ) (runtime : ResolutionRuntime K V) : Shared K V :=
  { s with runtimes := s.runtimes.set r runtime }

/-- `runtime.memo[key] = value`. -/
def remember (s : Shared K V) (r : ℕ) (key : K) (value : SnapshotValue K V) : Shared K V :=
  s.setRuntime r ((s.runtime r).remember key value)

/-- `runtime.memo[key] = value` followed by `runtime.mark_refreshed(key)`. -/
def refresh (s : Shared K V) (r : ℕ) (key : K) (value : SnapshotValue K V) : Shared K V :=
  s.setRuntime r (((s.runtime r).remember key value).markRefreshed key)

/-- A version is handed out to a new value with these dependency versions. -/
def issue (s : Shared K V) (versions : Dict K ℕ) : Shared K V :=
  { s with revisions := s.revisions ++ [versions] }

end Shared

namespace State

def frame? (s : State K V) (i : ℕ) : Option (Frame K V) := s.frames[i]?

/-- What a finished `_resolve_owned_keys` returned or raised. -/
def ownedOutcome (s : State K V) (i : ℕ) :
    Option (Except (Error K) (Dict K (ResolutionResult K V))) :=
  match s.frame? i with
  | some ⟨_, .resolveOwned _ l .done⟩ => some (.ok l.resolved)
  | some ⟨_, .resolveOwned _ _ (.raised e)⟩ => some (.error e)
  | _ => none

/-- What a finished `_resolve_many` returned or raised. -/
def manyOutcome (s : State K V) (i : ℕ) :
    Option (Except (Error K) (Dict K (SnapshotValue K V) × Dict K (Error K))) :=
  match s.frame? i with
  | some ⟨_, .resolveMany _ l .done⟩ => some (.ok (l.values, l.errors))
  | some ⟨_, .resolveMany _ _ (.raised e)⟩ => some (.error e)
  | _ => none

def workOutcome (s : State K V) (i : ℕ) : Option (List (K × SourceAttempt K V)) :=
  match s.frame? i with
  | some ⟨_, .work _ _ (.done attempts)⟩ => some attempts
  | _ => none

/-- The future of `key` that producer `i` settles. -/
def future (s : State K V) (i : ℕ) (key : K) : Option (Except (Error K) (ResolutionResult K V)) :=
  match s.frame? i with
  | some ⟨_, .produce _ settled _⟩ => settled.get? key
  | _ => none

/-- What `gather` returns once every future holds a result. -/
def joined (s : State K V) (futures : List (K × ℕ)) : Option (Dict K (ResolutionResult K V)) :=
  if futures.all fun e => ((s.future e.2 e.1).bind Except.toOption).isSome then
    some (.comprehend (futures.map Prod.fst) fun key =>
      ((Dict.find futures key).bind fun i => s.future i key).bind Except.toOption)
  else none

/-- The exception `gather` delivers when the future of `key` holds one. -/
def joinFailure (s : State K V) (futures : List (K × ℕ)) (key : K) : Option (Error K) :=
  match (Dict.find futures key).bind fun i => s.future i key with
  | some (.error e) => some e
  | _ => none

/-- Whether the last refresh of `key` is still running. -/
def refreshing (s : State K V) (key : K) : Bool :=
  match (s.refreshes.get? key).bind s.frame? with
  | some ⟨_, .refresh _ .done⟩ => false
  | some _ => true
  | none => false

/-- `RefreshManager.schedule` on an open builder: one refresh a key at a time, in a runtime of its
own without a deadline. -/
def schedule (s : State K V) (key : K) (wanted : Bool) : Shared K V × Option (Frame K V) :=
  if wanted && !s.refreshing key then
    ({ s.toShared with
        runtimes := s.runtimes ++ [{ ResolutionRuntime.new with cacheStaleResults := false }]
        refreshes := s.refreshes.set key s.frames.length },
      some ⟨⟨none, s.runtimes.length, [], [], none⟩, .refresh key .reserving⟩)
  else (s.toShared, none)

/-- The critical section of `SingleFlight.run_many`: every key without a future gets one, and one
producer owns all of these. -/
def reserve (s : State K V) (c : Scope K) (keys : List K) :
    List (K × ℕ) × Shared K V × Option (Frame K V) :=
  let owned := keys.filter fun key => (s.tasks.get? key).isNone
  let futures := keys.map fun key => (key, (s.tasks.get? key).getD s.frames.length)
  if owned = [] then (futures, s.toShared, none)
  else (futures,
    { s.toShared with tasks := owned.foldl (fun d key => d.set key s.frames.length) s.tasks },
    some ⟨{ c with localOwned := c.localOwned ++ owned, task := some s.frames.length },
      .produce owned .empty .start⟩)

end State

/-! ## Moves -/

/-- Keys that neither the memo nor a forced refresh decides: `cache_keys`. -/
def cacheKeysOf (r : ResolutionRuntime K V) (keys : List K) : List K :=
  keys.filter fun key => !r.requiresRefresh key && (r.memo.get? key).isNone

/-- Keys that `_resolve_many` resolves itself: `directly_owned`. -/
def ownsDirectly (c : Scope K) (r : ResolutionRuntime K V) (key : K) : Bool :=
  decide (key ∈ c.localOwned) || r.requiresRefresh key

/-- Keys that one turn of the source loop offers to `source`. -/
def consideredKeys (r : ResolutionRuntime K V) (source : Source K) (l : OwnedLocals K V) : List K :=
  l.unresolved.filter fun key => !r.sourceIsExcluded key source.name

/-- The same exception for every key of a unit of work. -/
def failAll (keys : List K) (e : Error K) : List (K × SourceAttempt K V) :=
  keys.map fun key => (key, .failed e)

/-- `_produce` refuses a batch that omits an owned key. -/
def produceOutcome (owned : List K) :
    Except (Error K) (Dict K (ResolutionResult K V)) →
      Except (Error K) (Dict K (ResolutionResult K V))
  | .ok resolved =>
    if owned.all fun key => decide (key ∈ resolved.keys) then .ok resolved
    else .error (.other "RuntimeError")
  | .error e => .error e

/-- What `_complete` puts into the future of `key`. -/
def completion (outcome : Except (Error K) (Dict K (ResolutionResult K V))) (key : K) :
    Except (Error K) (ResolutionResult K V) :=
  match outcome with
  | .ok resolved => (resolved.get? key).elim (.error (.other "RuntimeError")) .ok
  | .error e => .error e

namespace Builder
variable (b : Builder K V)

/-- `_resolve_many`. -/
def moveMany (s : State K V) (c : Scope K) (keys : List K) (l : ManyLocals K V) :
    ManyPhase K V → Event K V → Option (Step K V)
  | .start, .go =>
    let r := s.runtime c.runtime
    let cacheKeys := cacheKeysOf r keys
    let l := { l with
      values := .comprehend keys r.pinned
      pending := keys.filter r.requiresRefresh }
    some ⟨s.toShared,
      .resolveMany keys l (if cacheKeys = [] then .serving [] else .reading cacheKeys s.now), none⟩
  | .reading cacheKeys now, .go =>
    let read := s.cache.getMany now b.policyFor cacheKeys
    some ⟨{ s.toShared with cache := read.2 }, .resolveMany keys l (.isolating read.1), none⟩
  | .isolating lookups, .go =>
    some ⟨s.toShared,
      .resolveMany keys l (.serving (lookups.map fun e => (e.1, isolatedLookup b.copier e.2))),
      none⟩
  | .serving [], .go =>
    if l.pending = [] then some ⟨s.toShared, .resolveMany keys l .done, none⟩
    else
      let direct := ownsDirectly c (s.runtime c.runtime)
      let directlyOwned := l.pending.filter direct
      let shared := l.pending.filter fun key => !direct key
      if directlyOwned = [] then
        some ⟨s.toShared, .resolveMany keys l (.reserving shared), none⟩
      else some ⟨s.toShared, .resolveMany keys l (.resolving s.frames.length shared),
        some ⟨{ c with localOwned := c.localOwned ++ directlyOwned },
          .resolveOwned directlyOwned (.new directlyOwned) (.visiting b.sources)⟩⟩
  | .serving ((key, lookup) :: rest), .go =>
    let policy := b.policyFor key
    let missed := { l with pending := l.pending ++ [key] }
    match lookup.value with
    | none => some ⟨s.toShared, .resolveMany keys missed (.serving rest), none⟩
    | some value =>
      if lookup.fresh then
        let scheduled := s.schedule key (lookup.ageSeconds.any policy.shouldRefreshAhead)
        some ⟨scheduled.1, .resolveMany keys l (.copying key (b.cachedCopy s.now false value) rest),
          scheduled.2⟩
      else if lookup.usableStale && decide (policy.refreshMode = .staleWhileRevalidate) then
        let scheduled := s.schedule key true
        some ⟨scheduled.1, .resolveMany keys l (.copying key (b.cachedCopy s.now true value) rest),
          scheduled.2⟩
      else if lookup.usableStale then
        some ⟨s.toShared, .resolveMany keys
          { missed with staleCandidates := l.staleCandidates.set key value } (.serving rest), none⟩
      else some ⟨s.toShared, .resolveMany keys missed (.serving rest), none⟩
  | .copying key copy rest, .go =>
    some ⟨s.toShared.remember c.runtime key copy,
      .resolveMany keys { l with values := l.values.set key copy } (.serving rest), none⟩
  | .resolving child shared, .go =>
    match s.ownedOutcome child with
    | some (.ok resolved) =>
      some ⟨s.toShared, .resolveMany keys { l with results := l.results.update resolved }
        (if shared = [] then .collecting l.pending else .reserving shared), none⟩
    | some (.error e) => some ⟨s.toShared, .resolveMany keys l (.raised e), none⟩
    | none => none
  | .reserving shared, .go =>
    let reserved := s.reserve c shared
    some ⟨reserved.2.1, .resolveMany keys l (.joining reserved.1), reserved.2.2⟩
  | .joining futures, .go => (s.joined futures).map fun joined =>
      ⟨s.toShared, .resolveMany keys { l with results := l.results.update joined }
        (.collecting l.pending), none⟩
  | .joining futures, .failed key => (s.joinFailure futures key).map fun e =>
      ⟨s.toShared, .resolveMany keys l (.raised e), none⟩
  | .collecting [], .go => some ⟨s.toShared, .resolveMany keys l .done, none⟩
  | .collecting (key :: rest), .go =>
    match l.results.get? key with
    | none => some ⟨s.toShared, .resolveMany keys l (.raised (.other "KeyError")), none⟩
    | some (.ok value) =>
      some ⟨s.toShared.refresh c.runtime key value,
        .resolveMany keys { l with values := l.values.set key value } (.collecting rest), none⟩
    | some (.error e) =>
      let failed := Step.mk s.toShared
        (.resolveMany keys { l with errors := l.errors.set key e } (.collecting rest)) none
      match l.staleCandidates.get? key with
      | none => some failed
      | some value =>
        if (b.policyFor key).allowStaleOnError && !(s.runtime c.runtime).requiresRefresh key then
          some ⟨s.toShared,
            .resolveMany keys l (.fallback key (b.cachedCopy s.now true value) rest), none⟩
        else some failed
  | .fallback key copy rest, .go =>
    some ⟨s.toShared.remember c.runtime key copy,
      .resolveMany keys { l with values := l.values.set key copy } (.collecting rest), none⟩
  | .reading _ _, .raise fault | .isolating _, .raise fault | .copying _ _ _, .raise fault
  | .fallback _ _ _, .raise fault =>
    if c.admits fault then some ⟨s.toShared, .resolveMany keys l (.raised fault.error), none⟩
    else none
  | _, _ => none

/-- What one attempt amounts to for its key. -/
inductive Harvest (K V : Type)
  | refused (failure : SourceFailure)
  | stale (value : SnapshotValue K V) (versions : Dict K ℕ)
  | fresh (value : SnapshotValue K V) (versions : Dict K ℕ)

/-- The loop body of `_resolve_owned_keys` up to the freshness decision. -/
def harvest (now : ℚ) (version : ℕ) (source : Source K) (key : K) :
    SourceAttempt K V → Harvest K V
  | .failed e => .refused (e.sourceFailure source.name)
  | .succeeded payload versions =>
    if b.validatePayloadTimestamp now payload then
      let value := b.snapshotValue now version key source payload versions
      if value.stale then .stale value versions else .fresh value versions
    else .refused ⟨source.name, "SourceProtocolError"⟩

/-- The freshest stale value that the key's policy still tolerates. -/
def keepStale (l : OwnedLocals K V) (key : K) (value : SnapshotValue K V) : OwnedLocals K V :=
  if (value.ageSeconds : WithTop ℚ) ≤ (b.policyFor key).maxStaleSeconds ∧
      (l.bestStale.get? key).all fun best => decide (best.observedAt < value.observedAt) then
    { l with bestStale := l.bestStale.set key value }
  else l

/-- The keys that leave one visit of the source loop: pinned ones are resolved. -/
def visit (r : ResolutionRuntime K V) (l : OwnedLocals K V) : OwnedLocals K V :=
  let resolved := l.resolved.update (.comprehend l.unresolved fun key => (r.pinned key).map .ok)
  { l with
    resolved
    unresolved := l.unresolved.filter fun key => decide (key ∉ resolved.keys) }

/-- The failures of `supports` calls that raise. -/
def consider (source : Source K) (l : OwnedLocals K V) (keys : List K) : OwnedLocals K V :=
  keys.foldl (fun l key =>
    match source.supports key with
    | .error fault => l.fail key ((fault.error : Error K).sourceFailure source.name)
    | .ok _ => l) l

def candidates (source : Source K) (keys : List K) : List K :=
  keys.filter fun key => match source.supports key with
    | .ok supported => supported
    | .error _ => false

/-- `_resolve_owned_keys`. -/
def moveOwned (s : State K V) (c : Scope K) (keys : List K) (l : OwnedLocals K V) :
    OwnedPhase K V → Event K V → Option (Step K V)
  | .visiting [], .go =>
    some ⟨s.toShared, .resolveOwned keys l (.finishing l.unresolved []), none⟩
  | .visiting (source :: sources), .go =>
    let r := s.runtime c.runtime
    let l := visit r l
    let considered := consideredKeys r source l
    let chosen := candidates source considered
    let l' := consider source l considered
    if l.unresolved = [] then some ⟨s.toShared, .resolveOwned keys l (.finishing [] []), none⟩
    else if chosen = [] then
      some ⟨s.toShared, .resolveOwned keys l' (.visiting sources), none⟩
    else some ⟨s.toShared,
      .resolveOwned keys l' (.attempting source sources chosen (source.items chosen) []), none⟩
  | .attempting source sources chosen (item :: queue) children, .go =>
    if (children.filter fun i => (s.workOutcome i).isNone).length < b.maxTasks source then
      some ⟨s.toShared,
        .resolveOwned keys l
          (.attempting source sources chosen queue (children ++ [s.frames.length])),
        some ⟨c, .work source item
          (if source.kind = .derived then .start else .calling .empty)⟩⟩
    else none
  | .attempting source sources chosen [] children, .go =>
    if children.all fun i => (s.workOutcome i).isSome then
      some ⟨s.toShared,
        .resolveOwned keys l (.harvesting source sources
          (children.flatMap fun i => (s.workOutcome i).getD []) chosen []), none⟩
    else none
  | .harvesting source sources attempts (key :: rest) fresh, .go =>
    match Dict.find attempts key with
    | none => some ⟨s.toShared, .resolveOwned keys l (.raised (.other "KeyError")), none⟩
    | some attempt =>
      match b.harvest s.now s.revisions.length source key attempt with
      | .refused failure =>
        some ⟨s.toShared,
          .resolveOwned keys (l.fail key failure) (.harvesting source sources attempts rest fresh),
          none⟩
      | .stale value versions =>
        some ⟨s.toShared.issue versions,
          .resolveOwned keys ((b.keepStale l key value).fail key ⟨source.name, "StaleSourceData"⟩)
            (.harvesting source sources attempts rest fresh), none⟩
      | .fresh value versions =>
        some ⟨(s.toShared.issue versions).refresh c.runtime key value,
          .resolveOwned keys { l with resolved := l.resolved.set key (.ok value) }
            (.harvesting source sources attempts rest (fresh ++ [value])), none⟩
  | .harvesting _ sources _ [] fresh, .go =>
    if fresh ≠ [] ∧ (s.runtime c.runtime).cacheSourceResults then
      some ⟨s.toShared, .resolveOwned keys l (.writing sources fresh), none⟩
    else some ⟨s.toShared, .resolveOwned keys l.settle (.visiting sources), none⟩
  | .writing sources fresh, .go =>
    let wrote := b.setMany s.cache fresh
    some ⟨{ s.toShared with cache := wrote.2 },
      .resolveOwned keys l (.written sources (superseded b fresh wrote.1)), none⟩
  | .written sources winners, .go =>
    some ⟨s.toShared, .resolveOwned keys l (.superseding sources winners), none⟩
  | .superseding sources [], .go =>
    some ⟨s.toShared, .resolveOwned keys l.settle (.visiting sources), none⟩
  | .superseding sources ((key, winner) :: rest), .go =>
    some ⟨s.toShared,
      .resolveOwned keys l (.copyingWinner sources key (b.cachedCopy s.now false winner) rest),
      none⟩
  | .copyingWinner sources key copy rest, .go =>
    some ⟨s.toShared.remember c.runtime key copy,
      .resolveOwned keys { l with resolved := l.resolved.set key (.ok copy) }
        (.superseding sources rest), none⟩
  | .finishing (key :: rest) stales, .go =>
    let failed := Step.mk s.toShared
      (.resolveOwned keys (l.giveUp key) (.finishing rest stales)) none
    match l.bestStale.get? key with
    | none => some failed
    | some stale =>
      if (b.policyFor key).allowStaleOnError && !(s.runtime c.runtime).requiresRefresh key then
        some ⟨s.toShared.remember c.runtime key stale,
          .resolveOwned keys { l with resolved := l.resolved.set key (.ok stale) }
            (.finishing rest (stales ++ [stale])), none⟩
      else some failed
  | .finishing [] stales, .go =>
    if stales ≠ [] ∧ (s.runtime c.runtime).cacheStaleResults then
      some ⟨s.toShared, .resolveOwned keys l (.staleWriting stales), none⟩
    else some ⟨s.toShared, .resolveOwned keys l .done, none⟩
  | .staleWriting stales, .go =>
    some ⟨{ s.toShared with cache := (b.setMany s.cache stales).2 },
      .resolveOwned keys l .staleWritten, none⟩
  | .staleWritten, .go => some ⟨s.toShared, .resolveOwned keys l .done, none⟩
  | .writing _ _, .raise fault | .written _ _, .raise fault | .copyingWinner _ _ _ _, .raise fault
  | .staleWriting _, .raise fault | .staleWritten, .raise fault =>
    if c.admits fault then some ⟨s.toShared, .resolveOwned keys l (.raised fault.error), none⟩
    else none
  | _, _ => none

/-- The first declared dependency that the path already holds closes a cycle. -/
def cycleIn (path : List K) : List K → Option (List K)
  | [] => none
  | dependency :: rest =>
    if dependency ∈ path then some (path.dropWhile (fun k => decide (k ≠ dependency)) ++ [dependency])
    else cycleIn path rest

/-- `derive_one`, `fetch_one` and `attempt_chunk`. -/
def moveWork (s : State K V) (c : Scope K) (source : Source K) (keys : List K) :
    WorkPhase K V → Event K V → Option (Step K V)
  | .start, .go =>
    let failed := fun (e : Error K) => Step.mk s.toShared
      (.work source keys (.done (failAll keys e))) none
    match keys with
    | [] => none
    | key :: _ =>
      match source.dependencies key with
      | .error fault => some (failed fault.error)
      | .ok declared =>
        match cycleIn (c.ancestry ++ [key]) (Dict.fromKeys declared) with
        | some path => some (failed (.dependencyCycle path))
        | none => some ⟨s.toShared, .work source keys (.resolving s.frames.length),
            some ⟨{ c with ancestry := c.ancestry ++ [key] },
              .resolveMany (Dict.fromKeys declared) .new .start⟩⟩
  | .resolving child, .go =>
    match s.manyOutcome child with
    | some (.ok (values, errors)) =>
      if errors.keys = [] then
        some ⟨s.toShared, .work source keys (.isolating values), none⟩
      else some ⟨s.toShared, .work source keys (.done (keys.map fun key =>
        (key, .failed (.dependencyResolution key source.name errors.keys)))), none⟩
    | some (.error e) => some ⟨s.toShared,
        .work source keys (.done (failAll keys e)), none⟩
    | none => none
  | .isolating values, .go =>
    some ⟨s.toShared,
      .work source keys (.calling (.comprehend values.keys fun key =>
        (values.get? key).map SnapshotValue.version)), none⟩
  | .calling versions, .answer payloads =>
    match source.kind with
    | .batch _ => some ⟨s.toShared,
        .work source keys (.done (b.batchAttempts s.now keys payloads)), none⟩
    | _ =>
      if keys.all fun key => (payloads.get? key).isSome then
        some ⟨s.toShared, .work source keys (.done (keys.filterMap fun key =>
          (payloads.get? key).map fun payload => (key, b.attemptOf s.now versions payload))), none⟩
      else none
  | .isolating _, .raise fault =>
    if c.admits fault then some ⟨s.toShared,
      .work source keys (.done (failAll keys fault.error)), none⟩
    else none
  | .calling _, .raise fault => some ⟨s.toShared,
      .work source keys (.done (failAll keys fault.error)), none⟩
  | _, _ => none

/-- `SingleFlight._produce` and `_complete`. -/
def moveProduce (s : State K V) (c : Scope K) (owned : List K)
    (settled : Dict K (Except (Error K) (ResolutionResult K V))) :
    ProducePhase K V → Event K V → Option (Step K V)
  | .start, .go =>
    some ⟨s.toShared, .produce owned settled (.running s.frames.length),
      some ⟨c, .resolveOwned owned (.new owned) (.visiting b.sources)⟩⟩
  | .running child, .go => (s.ownedOutcome child).map fun outcome =>
      ⟨s.toShared, .produce owned settled (.completing owned (produceOutcome owned outcome)), none⟩
  | .completing (key :: rest) outcome, .go =>
    some ⟨{ s.toShared with tasks := s.tasks.erase key },
      .produce owned (settled.set key (completion outcome key)) (.completing rest outcome), none⟩
  | .completing [] _, .go => some ⟨s.toShared, .produce owned settled .done, none⟩
  | _, _ => none

/-- `RefreshManager._refresh_resource`: only diagnostics depend on how the flight ends. -/
def moveRefresh (s : State K V) (c : Scope K) (key : K) :
    RefreshPhase K → Event K V → Option (Step K V)
  | .reserving, .go =>
    let reserved := s.reserve c [key]
    some ⟨reserved.2.1, .refresh key (.joining reserved.1), reserved.2.2⟩
  | .joining futures, .go =>
    (s.joined futures).map fun _ => ⟨s.toShared, .refresh key .done, none⟩
  | .joining futures, .failed key' =>
    (s.joinFailure futures key').map fun _ => ⟨s.toShared, .refresh key .done, none⟩
  | _, _ => none

def move (s : State K V) (f : Frame K V) (e : Event K V) : Option (Step K V) :=
  match f.body with
  | .resolveMany keys l p => b.moveMany s f.scope keys l p e
  | .resolveOwned keys l p => b.moveOwned s f.scope keys l p e
  | .work source keys p => b.moveWork s f.scope source keys p e
  | .produce owned settled p => b.moveProduce s f.scope owned settled p e
  | .refresh key p => moveRefresh s f.scope key p e

end Builder

/-! ## Steps -/

/-- What happens next: a coroutine moves, the clock moves, a session or a staged resolution opens
its runtime, a session calls `_resolve_many`, or another owner of the cache changes it. -/
inductive Label (K V : Type) [DecidableEq K]
  | run (i : ℕ) (e : Event K V)
  | tick (now : ℚ)
  | openRuntime (r : ResolutionRuntime K V)
  | call (runtime : ℕ) (deadline : Option ℚ) (keys : List K)
  | external (cache : AsyncMemoryCache K V)

/-- Frame `i` moves to a new point, and a started coroutine gets the next number. -/
def State.apply (s : State K V) (i : ℕ) (f : Frame K V) (m : Step K V) : State K V :=
  { m.shared with frames := s.frames.set i { f with body := m.body } ++ m.spawn.toList }

/-- No runtime is opened with a pinned value for a key it must refresh. -/
def Builder.step (b : Builder K V) (s : State K V) : Label K V → Option (State K V)
  | .run i e => (s.frame? i).bind fun f => (b.move s f e).map fun m => s.apply i f m
  | .tick now => some { s with now }
  | .openRuntime r =>
    if r.forceRefreshKeys.all fun key => (r.memo.get? key).isNone then
      some { s with runtimes := s.runtimes ++ [r] }
    else none
  | .call runtime deadline keys =>
    if runtime < s.runtimes.length then
      some { s with frames := s.frames ++
        [⟨⟨deadline, runtime, [], [], none⟩, .resolveMany (Dict.fromKeys keys) .new .start⟩] }
    else none
  | .external cache => some { s with cache }

/-- A builder over some cache, before any call. -/
def State.initial (now : ℚ) (cache : AsyncMemoryCache K V) (revisions : List (Dict K ℕ)) :
    State K V :=
  ⟨⟨now, revisions, cache, [], .empty, .empty⟩, []⟩

end
end Coalestra
