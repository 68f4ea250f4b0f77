import Coalestra.Lib.Ownership

/-! # Payloads across ownership boundaries

Which payload objects the library copies, keeps and hands out, for one key at a time, over
`AsyncMemoryCache` and a copier that returns a new object with the same content. A payload stands
for its value with its nested metadata. Which flow runs, which branch it takes and whether it is
abandoned (by an exception, a deadline or a cancellation) is left open, and the code outside
(sources, publishers, the callers of the cache and of sessions) may change what it holds at any
time. -/

namespace Coalestra
set_option autoImplicit false
set_option maxHeartbeats 250000

/-! ## Where references are kept -/

/-- A cache entry, the memo of a runtime, the result of a flight, a value that a call of
`_resolve_many` returns, and a resource that a session has pinned. -/
inductive PayloadPlace (K : Type)
  | entry (k : K)
  | memo (runtime : ℕ) (k : K)
  | result (flight : ℕ) (k : K)
  | value (call : ℕ) (k : K)
  | resource (session : ℕ) (k : K)
  deriving DecidableEq

/-- What `set_many_if_newer` does with a candidate. An ignored one may have been copied first, when
the entry changed before the second look under the lock. -/
inductive CandidateWrite
  | stored
  | ignored (prepared : Bool)
  deriving DecidableEq

namespace PayloadFlows
variable {K : Type}

/-! ## The cache -/

/-- `AsyncMemoryCache.get_many`: the entry is captured under the lock and copied outside it. -/
def getMany (k : K) (captured copied : ℕ) : List (Instr (PayloadPlace K)) :=
  [.load (.entry k) captured, .copy captured copied]

/-- `AsyncMemoryCache.set_many_if_newer` from the candidate in a register on, with `prepare` to copy
it for storage; the registers of the write result are `value` and `previous`. -/
def setManyIfNewer (k : K) (prepare : ℕ → Instr (PayloadPlace K)) (value previous : ℕ) :
    CandidateWrite → List (Instr (PayloadPlace K))
  | .stored => [prepare 20, .load (.entry k) 21, .save 20 (.entry k), .copy 20 value,
      .copy 21 previous]
  | .ignored prepared => (if prepared then [prepare 20] else []) ++
      [.load (.entry k) 21, .copy 21 value, .copy 21 previous]

/-! ## Reads and writes of a builder -/

/-- `CacheAccess.get_many`, which copies once more what the cache returns. -/
def cacheRead (k : K) (isolated : ℕ) : List (Instr (PayloadPlace K)) :=
  getMany k 0 1 ++ [.copy 1 isolated]

/-- `CacheAccess.set_many`, which copies the value before the cache does. -/
def cacheWrite (k : K) (written value previous : ℕ) (outcome : CandidateWrite) :
    List (Instr (PayloadPlace K)) :=
  .copy written 10 :: setManyIfNewer k (.copy 10) value previous outcome

/-- `SourceCalls.coerce_payload` on what a source returned. -/
def coercePayload (payload : ℕ) : List (Instr (PayloadPlace K)) := [.take 0, .accept 0 payload]

/-- `_resolve_many` with a cached value, fresh or stale: `cached_copy` of the lookup. -/
def cached (k : K) (call runtime : ℕ) : List (Instr (PayloadPlace K)) :=
  cacheRead k 2 ++ [.copy 2 3, .save 3 (.memo runtime k), .save 3 (.value call k)]

/-- How a source result meets the cache: it is not written, or it is, and then a cached value of
higher authority may take its place. -/
inductive ResultWrite
  | uncached
  | written (outcome : CandidateWrite) (superseded : Bool)
  deriving DecidableEq

/-- A source result in `_resolve_owned_keys`, fresh or the best stale one. -/
def acquired (k : K) (flight runtime : ℕ) : ResultWrite → List (Instr (PayloadPlace K))
  | .uncached => coercePayload 1 ++ [.save 1 (.memo runtime k), .save 1 (.result flight k)]
  | .written outcome superseded => coercePayload 1 ++ .save 1 (.memo runtime k) ::
      cacheWrite k 1 2 3 outcome ++
      if superseded then [.copy 2 4, .save 4 (.memo runtime k), .save 4 (.result flight k)]
      else [.save 1 (.result flight k)]

/-! ## Publications -/

/-- `_prepare_update_for_submission` copies the update of a `submit_*` method on the producer's
thread; any other update is copied when the candidate is made. The previous value is read before. -/
def prepareCandidate (k : K) (submitted : Bool) : List (Instr (PayloadPlace K)) :=
  if submitted then [.take 0, .accept 0 1] ++ getMany k 2 3 ++ [.copy 3 4, .copy 1 5]
  else .take 0 :: getMany k 2 3 ++ [.copy 3 4, .accept 0 5]

/-- `ResourcePublisher.publish_many` over a cache with atomic writes. The result of the write is
copied again, and the copies go to the publisher. -/
def published (k : K) (submitted : Bool) (outcome : CandidateWrite) :
    List (Instr (PayloadPlace K)) :=
  prepareCandidate k submitted ++ .copy 5 6 :: setManyIfNewer k (.copy 6) 7 8 outcome ++
    [.copy 7 9, .copy 8 11, .hand 9, .hand 11]

end PayloadFlows

/-! ## All flows -/

open PayloadFlows in
/-- What the library does with the payload of one key. -/
inductive PayloadFlow (K : Type)
  /-- `_resolve_many` answers from the cache. -/
  | cached (k : K) (call runtime : ℕ)
  /-- `_resolve_many` answers from the memo. -/
  | memoized (k : K) (call runtime : ℕ)
  /-- `_resolve_owned_keys` answers from the memo. -/
  | remembered (k : K) (flight runtime : ℕ)
  /-- `_resolve_owned_keys` answers from a source. -/
  | acquired (k : K) (flight runtime : ℕ) (write : ResultWrite)
  /-- `_resolve_many` takes a result of its own or of a flight it joined. -/
  | delivered (k : K) (flight call runtime : ℕ)
  /-- A derived source gets a dependency. -/
  | dependency (k : K) (call : ℕ)
  /-- A session pins a value that was resolved for it. -/
  | pinned (k : K) (call session : ℕ)
  /-- A revalidation commits the memo of its staging runtime. -/
  | committed (k : K) (staging runtime : ℕ)
  /-- `snapshot`, `snapshot_async`, and the end of `resolve`. -/
  | snapshot (k : K) (session : ℕ)
  /-- A revalidation delivers what it is about to pin. -/
  | candidate (k : K) (call : ℕ)
  /-- The publisher. -/
  | published (k : K) (submitted : Bool) (outcome : CandidateWrite)
  /-- `AsyncMemoryCache.get_many`, called from outside. -/
  | read (k : K)
  /-- `AsyncMemoryCache.set_many_if_newer`, called from outside. -/
  | written (k : K) (outcome : CandidateWrite)

variable {K V : Type}

def PayloadFlow.program : PayloadFlow K → List (Instr (PayloadPlace K))
  | .cached k call runtime => PayloadFlows.cached k call runtime
  | .memoized k call runtime => [.load (.memo runtime k) 0, .save 0 (.value call k)]
  | .remembered k flight runtime => [.load (.memo runtime k) 0, .save 0 (.result flight k)]
  | .acquired k flight runtime write => PayloadFlows.acquired k flight runtime write
  | .delivered k flight call runtime =>
    [.load (.result flight k) 0, .save 0 (.memo runtime k), .save 0 (.value call k)]
  | .dependency k call => [.load (.value call k) 0, .copy 0 1, .hand 1]
  | .pinned k call session => [.load (.value call k) 0, .save 0 (.resource session k)]
  | .committed k staging runtime => [.load (.memo staging k) 0, .save 0 (.memo runtime k)]
  | .snapshot k session => [.load (.resource session k) 0, .copy 0 1, .hand 1]
  | .candidate k call => [.load (.value call k) 0, .copy 0 1, .hand 1]
  | .published k submitted outcome => PayloadFlows.published k submitted outcome
  | .read k => PayloadFlows.getMany k 0 1 ++ [.hand 1]
  | .written k outcome =>
    .take 0 :: PayloadFlows.setManyIfNewer k (.accept 0) 1 2 outcome ++ [.hand 1, .hand 2]

/-- Every flow copies what it takes before it keeps it, and hands out only copies of its own. -/
theorem PayloadFlow.program_checks (f : PayloadFlow K) :
    checks (fun _ => none) f.program = true := by
  cases f with
  | cached | memoized | remembered | delivered | dependency | pinned | committed | snapshot
  | candidate | read => rfl
  | acquired k flight runtime write =>
    cases write with
    | uncached => rfl
    | written outcome superseded =>
      cases outcome with
      | stored => cases superseded <;> rfl
      | ignored prepared => cases prepared <;> cases superseded <;> rfl
  | published k submitted outcome =>
    cases outcome with
    | stored => cases submitted <;> rfl
    | ignored prepared => cases submitted <;> cases prepared <;> rfl
  | written k outcome =>
    cases outcome with
    | stored => rfl
    | ignored prepared => cases prepared <;> rfl

/-- Payload isolation, over every interleaving of resolutions, flights, revalidations, publications,
direct uses of the cache and changes that outside code makes to the objects it holds. Whatever the
library keeps is out of reach from outside and holds what it held when it was copied in; whatever it
hands out holds, at that time, what was copied in, so that two deliveries of one acceptance agree;
and no object is handed out twice. -/
theorem payloads_isolated [DecidableEq K]
    {ls : List (BoundaryLabel (PayloadFlow K) (PayloadPlace K) V)} {s : Boundary (PayloadPlace K) V}
    (hrun : Run (Boundary.step PayloadFlow.program) Boundary.new ls s) :
    (∀ p held, s.places p = some held → held.object ∉ s.outside ∧
      ∃ a v, held.acceptance = some a ∧ s.contents[held.object]? = some v ∧
        s.accepted[a]? = some v) ∧
    (∀ d ∈ s.deliveries, ∃ a, d.held.acceptance = some a ∧ s.accepted[a]? = some d.content) ∧
    (∀ d ∈ s.deliveries, ∀ e ∈ s.deliveries, d.held.acceptance = e.held.acceptance →
      d.content = e.content) ∧
    (s.deliveries.map fun d => d.held.object).Nodup := by
  have hsound := Boundary.Sound.run PayloadFlow.program_checks hrun
  refine ⟨hsound.places, fun d hd => (hsound.deliveries d hd).2, ?_, hsound.apart⟩
  intro d hd e he hacceptance
  obtain ⟨-, a, ha, hcontent⟩ := hsound.deliveries d hd
  obtain ⟨-, b, hb, hcontent'⟩ := hsound.deliveries e he
  rw [ha, hb, Option.some.injEq] at hacceptance
  rw [hacceptance, hcontent', Option.some.injEq] at hcontent
  exact hcontent.symm

/-! ## A caller that changes its snapshot -/

/-- Flow number `i`, to its end; what it takes is the object `object`. -/
def runFlow (f : PayloadFlow ℕ) (i object : ℕ) :
    List (BoundaryLabel (PayloadFlow ℕ) (PayloadPlace ℕ) ℕ) :=
  .start f :: List.replicate f.program.length (.turn i object)

/-- A source returns a payload and changes it later. One session gets it from the source and its
caller changes the snapshot, and another session gets it from the cache. -/
def twoSessions : List (BoundaryLabel (PayloadFlow ℕ) (PayloadPlace ℕ) ℕ) :=
  .allocate 7 :: runFlow (.acquired 5 0 0 (.written .stored false)) 0 0 ++ [.mutate 0 8] ++
    runFlow (.delivered 5 0 0 0) 1 0 ++ runFlow (.pinned 5 0 0) 2 0 ++
    runFlow (.snapshot 5 0) 3 0 ++ [.mutate 5 9] ++
    runFlow (.cached 5 1 1) 4 0 ++ runFlow (.pinned 5 1 1) 5 0 ++ runFlow (.snapshot 5 1) 6 0

theorem payloads_isolated_two : ∃ s : Boundary (PayloadPlace ℕ) ℕ,
    Run (Boundary.step PayloadFlow.program) Boundary.new twoSessions s ∧
      s.contents[0]? = some 8 ∧ s.deliveries.map Delivery.content = [7, 7] ∧
      (s.deliveries.map fun d => d.held.object).Nodup := by
  have hend : (exec (Boundary.step PayloadFlow.program)
      (Boundary.new : Boundary (PayloadPlace ℕ) ℕ) twoSessions).map
        (fun s => (s.contents[0]?, s.deliveries.map Delivery.content)) = some (some 8, [7, 7]) := by
    decide +kernel
  obtain ⟨s, hs, hview⟩ := Option.map_eq_some_iff.mp hend
  rw [Prod.mk.injEq] at hview
  have hrun := exec_run hs
  exact ⟨s, hrun, hview.1, hview.2, (payloads_isolated hrun).2.2.2⟩

end Coalestra
