import Mathlib.Algebra.Order.Ring.Rat
import Mathlib.Order.WithBot
import Coalestra.Lib.Dict

/-! # Values, freshness and lookups

The data of `core/models.py` and `core/authority.py`. Resource keys `K` and payloads `V` stay
abstract. Times are exact rationals; the two windows of a freshness policy may be infinite. A
version is drawn from a counter instead of `uuid4`, so the two share exactly the fact that a new
version differs from every older one. Fields that no modelled decision reads (latency, attempt
counts, metadata, diagnostics) are left out. -/

namespace Coalestra
set_option autoImplicit false
set_option maxHeartbeats 250000

/-- How a cached value is refreshed when it approaches or exceeds its TTL. -/
inductive RefreshMode
  | blocking
  | staleWhileRevalidate
  | refreshAhead
  deriving DecidableEq, Repr

/-- Outcome of an atomic authority-aware cache write. -/
inductive CacheWriteStatus
  | stored
  | ignoredLowerAuthority
  | ignoredOlder
  | ignoredDuplicate
  deriving DecidableEq, Repr

/-- Controls cache reuse, stale fallback and proactive refresh. The fields after the data are the
checks of `__post_init__`. -/
structure FreshnessPolicy where
  ttlSeconds : WithTop ℚ
  maxStaleSeconds : WithTop ℚ
  allowStaleOnError : Bool
  refreshMode : RefreshMode
  refreshAheadSeconds : ℚ
  ttl_nonneg : 0 ≤ ttlSeconds
  ttl_le_maxStale : ttlSeconds ≤ maxStaleSeconds
  refreshAhead_nonneg : 0 ≤ refreshAheadSeconds
  refreshAhead_le_ttl :
    refreshMode = .refreshAhead → (refreshAheadSeconds : WithTop ℚ) ≤ ttlSeconds
  refreshAhead_only : refreshMode ≠ .refreshAhead → refreshAheadSeconds = 0

/-- `FreshnessPolicy(ttl, max_stale)`: blocking refreshes, stale values allowed on errors. -/
def FreshnessPolicy.blocking (ttl maxStale : ℚ) (h : 0 ≤ ttl) (h' : ttl ≤ maxStale) :
    FreshnessPolicy where
  ttlSeconds := ttl
  maxStaleSeconds := maxStale
  allowStaleOnError := true
  refreshMode := .blocking
  refreshAheadSeconds := 0
  ttl_nonneg := by exact_mod_cast h
  ttl_le_maxStale := by exact_mod_cast h'
  refreshAhead_nonneg := le_rfl
  refreshAhead_le_ttl := by simp
  refreshAhead_only := by simp

theorem ten_nonneg : (0 : ℚ) ≤ 10 := by norm_num

theorem ten_le_twenty : (10 : ℚ) ≤ 20 := by norm_num

/-- `_all_values_policy` of the publisher and of the cache access. -/
def FreshnessPolicy.allValues : FreshnessPolicy where
  ttlSeconds := ⊤
  maxStaleSeconds := ⊤
  allowStaleOnError := true
  refreshMode := .blocking
  refreshAheadSeconds := 0
  ttl_nonneg := le_top
  ttl_le_maxStale := le_top
  refreshAhead_nonneg := le_rfl
  refreshAhead_le_ttl := by simp
  refreshAhead_only := by simp

/-- Whether a still-fresh value has entered its proactive refresh window. -/
def FreshnessPolicy.shouldRefreshAhead (p : FreshnessPolicy) (ageSeconds : ℚ) : Bool :=
  if p.refreshMode = .refreshAhead then
    match p.ttlSeconds with
    | ⊤ => false
    | (ttl : ℚ) => decide (max 0 (ttl - p.refreshAheadSeconds) ≤ ageSeconds)
  else false

/-- Resolved resource plus provenance and freshness. -/
structure SnapshotValue (K V : Type) where
  key : K
  value : V
  source : String
  observedAt : ℚ
  fetchedAt : ℚ
  ageSeconds : ℚ
  stale : Bool
  fromCache : Bool
  authorityRank : ℤ
  version : ℕ
  dependencyVersions : Dict K ℕ

/-- `PayloadIsolator.clone_snapshot_value`: only the payload is copied. -/
def SnapshotValue.clone {K V : Type} (copier : V → V) (v : SnapshotValue K V) :
    SnapshotValue K V :=
  { v with value := copier v.value }

/-- `max(0.0, now - observed_at)`. -/
def ageAt (now observedAt : ℚ) : ℚ := max 0 (now - observedAt)

theorem ageAt_nonneg (now observedAt : ℚ) : 0 ≤ ageAt now observedAt := le_max_left _ _

/-- Freshness-aware result of a cache read. -/
structure CacheLookup (K V : Type) where
  value : Option (SnapshotValue K V)
  fresh : Bool
  usableStale : Bool
  ageSeconds : Option ℚ

/-- The lookup that carries no value. -/
def CacheLookup.absent {K V : Type} (ageSeconds : Option ℚ) : CacheLookup K V :=
  ⟨none, false, false, ageSeconds⟩

/-- Value returned by a source before acquisition metadata is added. -/
structure SourcePayload (V : Type) where
  value : V
  observedAt : Option ℚ

/-- Assigns stable authority ranks to source names. -/
structure SourceAuthorityPolicy where
  sourceRanks : Dict String ℤ
  defaultRank : ℤ

def SourceAuthorityPolicy.rankFor (p : SourceAuthorityPolicy) (source : String) : ℤ :=
  (p.sourceRanks.get? source).getD p.defaultRank

end Coalestra
