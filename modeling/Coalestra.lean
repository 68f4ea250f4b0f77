import Coalestra.Adapters.CallableSources
import Coalestra.Cache.Batches
import Coalestra.Cache.Linearization
import Coalestra.Cache.Locking
import Coalestra.Cache.WriteFailures
import Coalestra.Cache.Writers
import Coalestra.Concurrency.OrderedDispatch
import Coalestra.Core.CopySlots
import Coalestra.Core.Health
import Coalestra.Core.HealthTracker
import Coalestra.Observability.Flushing
import Coalestra.Operational
import Coalestra.Orchestration.BatchChunks
import Coalestra.Orchestration.CacheAccess
import Coalestra.Orchestration.CircuitOutcomes
import Coalestra.Orchestration.Coherence
import Coalestra.Orchestration.Completeness
import Coalestra.Orchestration.SourceChain
import Coalestra.Orchestration.StaleFallback
import Coalestra.Orchestration.CycleDetection
import Coalestra.Orchestration.Deadlock
import Coalestra.Orchestration.Flights
import Coalestra.Orchestration.ForceRefresh
import Coalestra.Orchestration.Freshness
import Coalestra.Orchestration.Invalidation
import Coalestra.Orchestration.Lifecycle
import Coalestra.Orchestration.OneAcquisition
import Coalestra.Orchestration.Outcomes
import Coalestra.Orchestration.PayloadFlows
import Coalestra.Orchestration.Pinning
import Coalestra.Orchestration.RefreshReports
import Coalestra.Orchestration.SkewFallback
import Coalestra.Orchestration.SourceCapacity
import Coalestra.Orchestration.StrictResolve
import Coalestra.Orchestration.TimedCalls
import Coalestra.Resilience.Identities
import Coalestra.Resilience.Probes
import Coalestra.Resilience.Retry
import Coalestra.Resilience.Sequential
import Coalestra.Sync
import Coalestra.SyncClosing
