import Mathlib.Data.PNat.Defs
import Coalestra.Cache.Memory
import Coalestra.Core.Errors

/-! # Builders, runtimes and source attempts

The configuration of a `SnapshotBuilder`, the mutable state of one session
(`orchestration/runtime.py`) and the synchronous parts of `source_calls.py`, `cache_access.py` and
`source_executor.py`. The outcome of a source call is not part of the builder: it arrives while the
call is awaited. -/

namespace Coalestra
set_option autoImplicit false
set_option maxHeartbeats 250000

/-! ## Faults -/

/-- What an await may raise: the deadline of its context, or an exception of another class. -/
inductive Fault
  | deadline
  | other (typeName : String) (named : typeName ≠ "SnapshotDeadlineExceededError")
  deriving DecidableEq, Repr

theorem valueError_named : "ValueError" ≠ "SnapshotDeadlineExceededError" := by decide

def Fault.error {K : Type} : Fault → Error K
  | deadline => .snapshotDeadlineExceeded
  | other typeName _ => .other typeName

/-! ## Sources -/

/-- `SourceKind`; `source_catalog.py` refuses a batch size below one. -/
inductive SourceKind
  | single
  | batch (maxBatchSize : Option ℕ+)
  | derived
  deriving DecidableEq, Repr

/-- What the builder reads of a source before it calls it. -/
structure Source (K : Type) where
  name : String
  priority : ℤ
  kind : SourceKind
  supports : K → Except Fault Bool
  dependencies : K → Except Fault (List K)

/-- The declared dependencies of `key`, when `source` is derived and supports it. -/
def Source.declares {K : Type} (source : Source K) (key dependency : K) : Prop :=
  source.kind = .derived ∧ source.supports key = .ok true ∧
    ∃ dependencies, source.dependencies key = .ok dependencies ∧ dependency ∈ dependencies

/-- The configuration of `SnapshotBuilder`. The last fields are what its constructor establishes:
sources in falling priority, and bounds of at least one. -/
structure Builder (K V : Type) where
  sources : List (Source K)
  policyFor : K → FreshnessPolicy
  authorityFor : K → SourceAuthorityPolicy
  copier : V → V
  futureToleranceSeconds : ℚ
  rejectFutureObservations : Bool
  maxConcurrency : ℕ
  maxPendingTasks : ℕ
  sourceLimit : String → Option ℕ
  sorted : sources.Pairwise fun a b => b.priority ≤ a.priority
  maxConcurrency_pos : 1 ≤ maxConcurrency
  maxPendingTasks_pos : 1 ≤ maxPendingTasks

namespace Builder
variable {K V : Type}

/-- `key` may be derived from `dependency` by some source of the builder. -/
def DependsOn (b : Builder K V) (key dependency : K) : Prop :=
  ∃ source ∈ b.sources, source.declares key dependency

/-- Worker count of `run_bounded` for one source: chunks of a batch share the source's capacity. -/
def maxTasks (b : Builder K V) (source : Source K) : ℕ :=
  match source.kind with
  | .batch (some _) =>
    max 1 (min b.maxConcurrency
      (min b.maxPendingTasks ((b.sourceLimit source.name).getD b.maxConcurrency)))
  | _ => b.maxPendingTasks

theorem maxTasks_pos (b : Builder K V) (source : Source K) : 1 ≤ b.maxTasks source := by
  unfold maxTasks
  split
  · exact le_max_left _ _
  · exact b.maxPendingTasks_pos

end Builder

/-- `requested[index : index + size]` for every chunk start; the fuel bounds the number of chunks. -/
def chunksOf {K : Type} (size : ℕ) : ℕ → List K → List (List K)
  | 0, _ => []
  | _, [] => []
  | fuel + 1, keys => keys.take size :: chunksOf size fuel (keys.drop size)

/-- The units of work of one attempt: one key, or one chunk of a batch. -/
def Source.items {K : Type} (source : Source K) (keys : List K) : List (List K) :=
  match source.kind with
  | .batch none => [keys]
  | .batch (some size) => chunksOf size keys.length keys
  | _ => keys.map fun key => [key]

theorem flatten_chunksOf {K : Type} {size : ℕ} (h : 1 ≤ size) :
    ∀ (fuel : ℕ) (keys : List K), keys.length ≤ fuel → (chunksOf size fuel keys).flatten = keys
  | 0, keys, hk => by
      rw [Nat.le_zero, List.length_eq_zero_iff] at hk
      rw [hk]; rfl
  | fuel + 1, [], _ => rfl
  | fuel + 1, k :: keys, hk => by
      have hlen : ((k :: keys).drop size).length ≤ fuel := by
        rw [List.length_drop]
        omega
      rw [chunksOf, List.flatten_cons, flatten_chunksOf h fuel _ hlen, List.take_append_drop]
      simp

/-- No candidate is lost or repeated when an attempt is cut into units of work. -/
theorem Source.flatten_items {K : Type} (source : Source K) (keys : List K) :
    (source.items keys).flatten = keys := by
  unfold Source.items
  split
  · simp
  · rename_i size _
    exact flatten_chunksOf size.pos _ _ (le_refl _)
  · rw [← List.flatMap_def, List.flatMap_singleton']

/-! ## Runtimes -/

/-- `ResolutionRuntime`: the mutable state shared by every stage of one session. -/
structure ResolutionRuntime (K V : Type) [DecidableEq K] where
  memo : Dict K (SnapshotValue K V)
  cacheStaleResults : Bool
  forceRefreshKeys : List K
  excludedSources : Dict K (List String)
  cacheSourceResults : Bool

namespace ResolutionRuntime
variable {K V : Type} [DecidableEq K]

/-- The runtime of a new session. -/
def new : ResolutionRuntime K V := ⟨.empty, true, [], .empty, true⟩

def requiresRefresh (r : ResolutionRuntime K V) (key : K) : Bool :=
  decide (key ∈ r.forceRefreshKeys)

def markRefreshed (r : ResolutionRuntime K V) (key : K) : ResolutionRuntime K V :=
  { r with forceRefreshKeys := r.forceRefreshKeys.filter fun j => decide (j ≠ key) }

def sourceIsExcluded (r : ResolutionRuntime K V) (key : K) (source : String) : Bool :=
  decide (source ∈ (r.excludedSources.get? key).getD [])

/-- `runtime.memo[key] = value`. -/
def remember (r : ResolutionRuntime K V) (key : K) (value : SnapshotValue K V) :
    ResolutionRuntime K V :=
  { r with memo := r.memo.set key value }

/-- The memo entry that a read which honours forced keys may use. -/
def pinned (r : ResolutionRuntime K V) (key : K) : Option (SnapshotValue K V) :=
  if r.requiresRefresh key then none else r.memo.get? key

@[simp] theorem requiresRefresh_eq_true {r : ResolutionRuntime K V} {key : K} :
    r.requiresRefresh key = true ↔ key ∈ r.forceRefreshKeys := by simp [requiresRefresh]

@[simp] theorem memo_markRefreshed (r : ResolutionRuntime K V) (key : K) :
    (r.markRefreshed key).memo = r.memo := rfl

@[simp] theorem memo_remember (r : ResolutionRuntime K V) (key : K) (v : SnapshotValue K V) :
    (r.remember key v).memo = r.memo.set key v := rfl

@[simp] theorem force_remember (r : ResolutionRuntime K V) (key : K) (v : SnapshotValue K V) :
    (r.remember key v).forceRefreshKeys = r.forceRefreshKeys := rfl

theorem mem_force_markRefreshed {r : ResolutionRuntime K V} {key k : K} :
    k ∈ (r.markRefreshed key).forceRefreshKeys ↔ k ∈ r.forceRefreshKeys ∧ k ≠ key := by
  simp [markRefreshed]

theorem pinned_eq_some {r : ResolutionRuntime K V} {key : K} {v : SnapshotValue K V} :
    r.pinned key = some v ↔ key ∉ r.forceRefreshKeys ∧ r.memo.get? key = some v := by
  unfold pinned
  by_cases h : key ∈ r.forceRefreshKeys <;> simp [requiresRefresh, h]

end ResolutionRuntime

/-- `ResolutionResult`: exactly one of a value and an error. -/
abbrev ResolutionResult (K V : Type) := Except (Error K) (SnapshotValue K V)

/-- `SourceAttempt`: exactly one of a payload and an error; only a payload carries dependency
versions. -/
inductive SourceAttempt (K V : Type)
  | succeeded (payload : SourcePayload V) (dependencyVersions : Dict K ℕ)
  | failed (error : Error K)

/-! ## Payloads and copies -/

section
variable {K V : Type} [DecidableEq K]

/-- `validate_payload_timestamp`: whether the payload is accepted at `now`. -/
def Builder.validatePayloadTimestamp (b : Builder K V) (now : ℚ) (payload : SourcePayload V) :
    Bool :=
  match payload.observedAt with
  | none => true
  | some observedAt =>
    !(b.rejectFutureObservations && decide (b.futureToleranceSeconds < observedAt - now))

/-- The attempt a payload amounts to: its timestamp is validated when it arrives. -/
def Builder.attemptOf (b : Builder K V) (now : ℚ) (versions : Dict K ℕ)
    (payload : SourcePayload V) : SourceAttempt K V :=
  if b.validatePayloadTimestamp now payload then
    .succeeded { payload with value := b.copier payload.value } versions
  else .failed (.other "SourceProtocolError")

/-- `snapshot_value` at `fetched_at = now`, under a version never used before. -/
def Builder.snapshotValue (b : Builder K V) (now : ℚ) (version : ℕ) (key : K) (source : Source K)
    (payload : SourcePayload V) (dependencyVersions : Dict K ℕ) : SnapshotValue K V :=
  let observedAt := payload.observedAt.getD now
  { key
    value := payload.value
    source := source.name
    observedAt
    fetchedAt := now
    ageSeconds := ageAt now observedAt
    stale := decide ((b.policyFor key).ttlSeconds < (ageAt now observedAt : WithTop ℚ))
    fromCache := false
    authorityRank := (b.authorityFor key).rankFor source.name
    version
    dependencyVersions }

/-- `cached_copy`. -/
def Builder.cachedCopy (b : Builder K V) (now : ℚ) (stale : Bool) (v : SnapshotValue K V) :
    SnapshotValue K V :=
  { v with
    value := b.copier v.value
    fetchedAt := now
    ageSeconds := ageAt now v.observedAt
    stale
    fromCache := true }

/-- The result mapping of a batch call: an unrequested key spoils the whole answer, an omitted one
fails alone. -/
def Builder.batchAttempts (b : Builder K V) (now : ℚ) (keys : List K)
    (payloads : Dict K (SourcePayload V)) : List (K × SourceAttempt K V) :=
  if payloads.keys.all fun key => decide (key ∈ keys) then
    keys.map fun key => (key, match payloads.get? key with
      | some payload => b.attemptOf now .empty payload
      | none => .failed (.other "SourceUnavailableError"))
  else keys.map fun key => (key, .failed (.other "SourceProtocolError"))

/-- `AsyncCache.get_many` behind `CacheAccess.get_many`: every answer is a clone. -/
def isolatedLookup (copier : V → V) (lookup : CacheLookup K V) : CacheLookup K V :=
  { lookup with value := lookup.value.map (·.clone copier) }

/-- `CacheAccess.set_many` over the memory cache: one candidate a key, cloned on the way in and on
the way out, committed as one batch. -/
def Builder.setMany (b : Builder K V) (c : AsyncMemoryCache K V)
    (values : List (SnapshotValue K V)) :
    List (K × AsyncMemoryCache.CapturedWriteResult K V) × AsyncMemoryCache K V :=
  let candidates := (AsyncMemoryCache.selectCandidates
    (values.map (·.clone b.copier))).dict.values
  let prepared := candidates.foldl (fun e v => e.put (v.clone b.copier)) CacheEntries.empty
  (c.commitLocked false false prepared candidates).getD ([], c)

/-- The values that a cached value of higher authority supersedes, each with that value. -/
def superseded (b : Builder K V) (written : List (SnapshotValue K V))
    (results : List (K × AsyncMemoryCache.CapturedWriteResult K V)) :
    List (K × SnapshotValue K V) :=
  written.filterMap fun v =>
    match Dict.find results v.key with
    | some ⟨.ignoredLowerAuthority, value, _⟩ => some (v.key, value.clone b.copier)
    | _ => none

theorem eight_pos : 1 ≤ 8 := by decide

/-- Two sources: a derived one for the keys with declared dependencies, and a plain one of lower
priority for the keys without. -/
def Builder.layered (dependencies : K → List K) (policy : FreshnessPolicy) (copier : V → V) :
    Builder K V where
  sources :=
    [⟨"derived", 1, .derived, fun key => .ok (!(dependencies key).isEmpty),
        fun key => .ok (dependencies key)⟩,
      ⟨"plain", 0, .single, fun key => .ok (dependencies key).isEmpty, fun _ => .ok []⟩]
  policyFor := fun _ => policy
  authorityFor := fun _ => ⟨.empty, 0⟩
  copier := copier
  futureToleranceSeconds := 1
  rejectFutureObservations := true
  maxConcurrency := 8
  maxPendingTasks := 8
  sourceLimit := fun _ => none
  sorted := by simp
  maxConcurrency_pos := eight_pos
  maxPendingTasks_pos := eight_pos

omit [DecidableEq K] in
theorem Builder.layered_dependsOn {dependencies : K → List K} {policy : FreshnessPolicy}
    {copier : V → V} {key dependency : K} :
    (Builder.layered dependencies policy copier : Builder K V).DependsOn key dependency ↔
      dependency ∈ dependencies key := by
  constructor
  · rintro ⟨source, hs, hk, _, declared, hd, hmem⟩
    simp only [Builder.layered, List.mem_cons, List.not_mem_nil, or_false] at hs
    rcases hs with rfl | rfl
    · cases hd
      exact hmem
    · cases hk
  · intro h
    refine ⟨_, List.mem_cons_self, rfl, ?_, _, rfl, h⟩
    cases hd : dependencies key with
    | nil => rw [hd] at h; cases h
    | cons a l => simp [hd]

end
end Coalestra
