import Mathlib.Data.List.Flatten
import Mathlib.Data.List.Perm.Subperm
import Coalestra.Concurrency.OrderedDispatch
import Coalestra.Orchestration.CircuitOutcomes
import Coalestra.Orchestration.Runtime

/-! # Batches in chunks

`SourceExecutor.attempt` for a batch source: the keys without repetitions go to one
`_attempt_batch_source`, or in slices of `max_batch_size` through `run_bounded`. The source is a
partial function of the key; its payloads are copied, checked against the clock and asked for their
freshness, and each of these may raise. A chunk waits for capacity, for the source and for the
copies, so any order of its steps with those of the others is possible. Without timeouts and
deadlines nothing else ends a wait but a cancellation. -/

namespace Coalestra
set_option autoImplicit false
set_option maxHeartbeats 250000

/-- What `attempt` uses of a batch source whose `fetch_many` answers key by key. `isolate` is
`_coerce_payload_sync`, `inFuture` the rejection of `validate_payload_timestamp` at a time and
`fresh` the rest of `payload_is_fresh`, which resolves a policy. -/
structure BatchSource (K P : Type) where
  name : String
  maxBatchSize : Option ℕ+
  circuit : CircuitBreakerPolicy
  maxAttempts : ℕ
  fetch : K → Option P
  isolate : P → Option P
  inFuture : ℚ → P → Bool
  fresh : ℚ → K → P → Except Raised Bool

inductive AttemptError
  | circuitOpen
  | raised (error : Raised)
  | future
  | omitted (message : String)
  deriving DecidableEq, Repr

/-- A `SourceAttempt` of a batch: a payload or an error. -/
structure BatchAnswer (P : Type) where
  outcome : Except AttemptError P
  attempts : ℕ
  latencyMs : ℚ

/-- What two answers are compared by. -/
def BatchAnswer.content {P : Type} (answer : BatchAnswer P) : Except AttemptError P × ℕ :=
  (answer.outcome, answer.attempts)

/-- Where the call for one chunk stands after `before_call`: with its active groups before
`fetch_many`, in it or in the copies of its payloads, or at its end. -/
inductive ChunkStage (K : Type)
  | admitted (active : List (K × List K))
  | fetching (active : List (K × List K))
  | finished
  deriving DecidableEq, Repr

/-- The clock as a chunk reads it at its end. -/
structure ChunkTimes where
  validatedAt : ℚ
  freshAt : ℚ
  recordedAt : ℚ
  latencyMs : ℚ

/-- A call of `attempt`. Without a pool the caller awaits the only chunk itself; `fetched` are the
calls of `fetch_many` with the index of their chunk. -/
structure BatchDispatch (K P : Type) where
  circuits : Circuits
  chunks : List (List K)
  pool : Option (WorkerPool (List K) (Dict K (BatchAnswer P)) Unit)
  direct : Option (Dict K (BatchAnswer P))
  stages : Dict ℕ (ChunkStage K)
  fetched : List (ℕ × List K)
  batchChunks : ℕ

inductive BatchEvent (K P : Type)
  | pool (e : PoolEvent (Dict K (BatchAnswer P)) Unit)
  | beforeCall (w : ℕ) (now : ℚ)
  | fetchMany (w : ℕ)
  | finish (w : ℕ) (times : ChunkTimes)

namespace BatchSource
variable {K P : Type} [DecidableEq K] [KeyText K]

/-- `fetch_many_once` after its capacity; neither of its errors is retryable, so `run_with_retry`
calls it once. -/
def fetchManyOnce (source : BatchSource K P) (keys : List K) : Except Raised (List (K × P)) :=
  let result := keys.filterMap fun key => (source.fetch key).map fun payload => (key, payload)
  if result.all fun item => decide (item.1 ∈ keys) then
    match result.mapM fun item => (source.isolate item.2).map fun copied => (item.1, copied) with
    | some copied => .ok copied
    | none => .error (.other false)
  else .error .protocol

/-- The answer for one of the active keys, when nothing was raised for the batch. -/
def answerFor (source : BatchSource K P) (payloads : List (K × P)) (times : ChunkTimes) (key : K) :
    BatchAnswer P :=
  match Dict.find payloads key with
  | some payload =>
    if source.inFuture times.validatedAt payload then ⟨.error .future, 1, times.latencyMs⟩
    else ⟨.ok payload, 1, times.latencyMs⟩
  | none =>
    ⟨.error (.omitted ("batch source " ++ source.name ++ " omitted resource " ++
      KeyText.str key)), 1, times.latencyMs⟩

/-- `tuple(key for key in requested if key in allowed)`. -/
def activeKeys (requested : List K) (active : List (K × List K)) : List K :=
  requested.filter fun key => active.any fun group => decide (key ∈ group.2)

/-- `_attempt_batch_source` from the answer of its `fetch_many` to its end. -/
def finishBatch (source : BatchSource K P) (requested : List K) (active : List (K × List K))
    (times : ChunkTimes) (b : Circuits) : Circuits × Dict K (BatchAnswer P) :=
  let keys := activeKeys requested active
  let rejected := Dict.comprehend (requested.filter (· ∉ keys)) fun _ =>
    some ⟨.error .circuitOpen, 0, times.latencyMs⟩
  let failAll := fun (error : Raised) (attempts : ℕ) =>
    rejected.update (Dict.comprehend keys fun _ =>
      some ⟨.error (.raised error), attempts, times.latencyMs⟩)
  let recordFailure := fun (error : Raised) (b : Circuits) =>
    match batchOutcome error with
    | some outcome => Executor.recordAll source.circuit times.recordedAt outcome
        (Executor.identities source.name source.circuit.scope active) b
    | none => b
  if keys.isEmpty then (b, rejected)
  else
    match source.fetchManyOnce keys with
    | .error error => (recordFailure error b, failAll error 1)
    | .ok payloads =>
      let returned := (payloads.filter fun item =>
        !source.inFuture times.validatedAt item.2).map Prod.fst
      let (b, _, ended) := Executor.recordGroups source.name source.circuit times.recordedAt
        returned (fun key => match Dict.find payloads key with
          | some payload => source.fresh times.freshAt key payload
          | none => .ok false) active b
      match ended with
      | .error error => (recordFailure error b,
          failAll error (if error.retryable then source.maxAttempts else 1))
      | .ok () =>
        (b, rejected.update (Dict.comprehend keys fun key =>
          some (source.answerFor payloads times key)))

/-- The circuit groups of a chunk. -/
def groups (source : BatchSource K P) (chunk : List K) : List (K × List K) :=
  Executor.circuitGroups source.name source.circuit.scope (Dict.fromKeys chunk)

end BatchSource

/-- `wave_size` of `attempt`. -/
def waveSize (maxConcurrency maxPendingTasks : ℕ) (sourceLimit : Option ℕ) : ℕ :=
  let limit := match sourceLimit with
    | some (limit + 1) => limit + 1
    | _ => maxConcurrency
  max 1 (min maxConcurrency (min maxPendingTasks limit))

namespace BatchDispatch
variable {K P : Type} [DecidableEq K] [KeyText K]

/-- The batch branch of `attempt` up to its first await. -/
def attempt (source : BatchSource K P) (keys : List K) (maxTasks : ℕ) (b : Circuits) :
    BatchDispatch K P :=
  let requested := Dict.fromKeys keys
  let whole : BatchDispatch K P := ⟨b, [requested], none, none, .empty, [], 1⟩
  match source.maxBatchSize with
  | none => whole
  | some size =>
    if requested.length ≤ size then whole
    else
      let chunks := chunksOf size requested.length requested
      ⟨b, chunks, some (.new false maxTasks chunks), none, .empty, [], chunks.length⟩

/-- The chunk that is in the hands of a worker; the caller is worker zero where there is no pool. -/
def indexOf (s : BatchDispatch K P) (w : ℕ) : Option ℕ :=
  match s.pool with
  | none => if w = 0 ∧ s.direct.isNone = true then some 0 else none
  | some pool =>
    match pool.workers[w]? with
    | some (.operating i) => some i
    | _ => none

/-- The steps of the pool that are not left to a chunk; a chunk raises only a cancellation. -/
def permits (pool : WorkerPool (List K) (Dict K (BatchAnswer P)) Unit) :
    PoolEvent (Dict K (BatchAnswer P)) Unit → Bool
  | .returns _ _ => false
  | .raises _ error leaving =>
    decide (error = .cancelledError) && !leaving && pool.stopping
  | _ => true

/-- The chunk comes back with its results. -/
def deliver (s : BatchDispatch K P) (w i : ℕ) (r : Circuits × Dict K (BatchAnswer P)) :
    Option (BatchDispatch K P) :=
  let s := { s with circuits := r.1, stages := s.stages.set i .finished }
  match s.pool with
  | none => some { s with direct := some r.2 }
  | some pool => (pool.step (.returns w r.2)).map fun pool => { s with pool := some pool }

def step (source : BatchSource K P) (s : BatchDispatch K P) :
    BatchEvent K P → Option (BatchDispatch K P)
  | .pool e =>
    match s.pool with
    | some pool =>
      if permits pool e then (pool.step e).map fun pool => { s with pool := some pool } else none
    | none => none
  | .beforeCall w now =>
    match s.indexOf w with
    | some i =>
      match s.chunks[i]?, s.stages.get? i with
      | some chunk, none =>
        let r := Executor.admitGroups source.name source.circuit now (source.groups chunk)
          s.circuits
        some { s with circuits := r.1, stages := s.stages.set i (.admitted r.2) }
      | _, _ => none
    | none => none
  | .fetchMany w =>
    match s.indexOf w with
    | some i =>
      match s.chunks[i]?, s.stages.get? i with
      | some chunk, some (.admitted active) =>
        let keys := BatchSource.activeKeys (Dict.fromKeys chunk) active
        if keys.isEmpty then none
        else some { s with
          stages := s.stages.set i (.fetching active)
          fetched := s.fetched ++ [(i, keys)] }
      | _, _ => none
    | none => none
  | .finish w times =>
    match s.indexOf w with
    | some i =>
      match s.chunks[i]?, s.stages.get? i with
      | some chunk, some (.admitted active) =>
        if (BatchSource.activeKeys (Dict.fromKeys chunk) active).isEmpty then
          s.deliver w i (source.finishBatch (Dict.fromKeys chunk) active times s.circuits)
        else none
      | some chunk, some (.fetching active) =>
        s.deliver w i (source.finishBatch (Dict.fromKeys chunk) active times s.circuits)
      | _, _ => none
    | none => none

/-- What `attempt` has returned. -/
def returned (s : BatchDispatch K P) : Option (Dict K (BatchAnswer P)) :=
  match s.pool with
  | none => s.direct
  | some pool =>
    match pool.caller with
    | .returned results => some (results.foldl Dict.update .empty)
    | _ => none

end BatchDispatch

/-! ## One chunk -/

section
variable {K P : Type} [DecidableEq K] [KeyText K] {source : BatchSource K P}

/-- Every key is in one of the circuit groups. -/
theorem mem_circuitGroups (name : String) (scope : CircuitScope) (keys : List K) {key : K}
    (h : key ∈ keys) : ∃ group ∈ Executor.circuitGroups name scope keys, key ∈ group.2 := by
  have hgrouped : ∀ (keys : List K) (grouped : Dict CircuitIdentity (List K)),
      (key ∈ keys ∨ ∃ identity items, grouped.get? identity = some items ∧ key ∈ items) →
      ∃ identity items, (keys.foldl (fun grouped key =>
        grouped.set (identityFor name key scope)
          ((grouped.get? (identityFor name key scope)).getD [] ++ [key])) grouped).get? identity =
            some items ∧ key ∈ items := by
    intro keys
    induction keys with
    | nil => exact fun _ h => h.resolve_left List.not_mem_nil
    | cons first rest ih =>
      intro grouped h
      refine ih _ ?_
      by_cases hrest : key ∈ rest
      · exact .inl hrest
      · refine .inr ?_
        rcases h with h | ⟨identity, items, hitems, hkey⟩
        · have hfirst : key = first := (List.mem_cons.mp h).resolve_right hrest
          subst hfirst
          exact ⟨_, _, Dict.get?_set_self _ _ _, by simp⟩
        · by_cases hsame : identity = identityFor name first scope
          · subst hsame
            refine ⟨_, _, Dict.get?_set_self _ _ _, ?_⟩
            rw [hitems, Option.getD_some]
            exact List.mem_append_left _ hkey
          · exact ⟨identity, items, (Dict.get?_set_ne _ _ hsame).trans hitems, hkey⟩
  obtain ⟨identity, items, hitems, hkey⟩ := hgrouped keys .empty (.inl h)
  cases items with
  | nil => cases hkey
  | cons representative rest =>
    refine ⟨(representative, representative :: rest), ?_, hkey⟩
    rw [Executor.circuitGroups]
    refine List.mem_filterMap.mpr ⟨representative :: rest, ?_, rfl⟩
    exact List.mem_map.mpr ⟨(identity, representative :: rest), Dict.mem_entries.mpr hitems, rfl⟩

omit [DecidableEq K] in
/-- A disabled breaker lets every group pass. -/
theorem admitGroups_disabled {policy : CircuitBreakerPolicy} (hdisabled : policy.enabled = false)
    (name : String) (now : ℚ) : ∀ (groups : List (K × List K)) (b : Circuits),
      Executor.admitGroups name policy now groups b = (b, groups)
  | [], b => rfl
  | group :: rest, b => by
      rw [Executor.admitGroups]
      simp only [Circuits.beforeCall, hdisabled, Bool.false_eq_true, if_false,
        admitGroups_disabled hdisabled name now rest b, if_true]

namespace BatchSource

/-- All keys of a chunk are active in its own groups. -/
theorem activeKeys_groups (chunk : List K) :
    activeKeys (Dict.fromKeys chunk) (source.groups chunk) = Dict.fromKeys chunk := by
  refine List.filter_eq_self.mpr fun key hkey => ?_
  obtain ⟨group, hgroup, hmem⟩ :=
    mem_circuitGroups source.name source.circuit.scope (Dict.fromKeys chunk) hkey
  exact List.any_eq_true.mpr ⟨group, hgroup, decide_eq_true hmem⟩

/-- The payload of the key can be copied, and its freshness policy answers. -/
def Sound (source : BatchSource K P) (key : K) : Prop :=
  ∀ payload, source.fetch key = some payload → ∃ copied, source.isolate payload = some copied ∧
    ∀ t, ∃ fresh, source.fresh t key copied = .ok fresh

/-- The clock does not change the verdict about the timestamp of the key's payload. -/
def Settled (source : BatchSource K P) (key : K) : Prop :=
  ∀ copied, (source.fetch key).bind source.isolate = some copied →
    ∀ t t', source.inFuture t copied = source.inFuture t' copied

/-- What `attempt` says about a key when nothing is raised for its batch. -/
def verdict (source : BatchSource K P) (key : K) : Except AttemptError P × ℕ :=
  match (source.fetch key).bind source.isolate with
  | some copied => if source.inFuture 0 copied then (.error .future, 1) else (.ok copied, 1)
  | none =>
    (.error (.omitted ("batch source " ++ source.name ++ " omitted resource " ++
      KeyText.str key)), 1)

omit [KeyText K] in
/-- The copies of the answer, key by key, when each can be made. -/
theorem copies_sound : ∀ {keys : List K}, (∀ key ∈ keys, source.Sound key) →
    ∃ payloads, ((keys.filterMap fun key => (source.fetch key).map fun payload =>
        (key, payload)).mapM fun item => (source.isolate item.2).map fun copied =>
          (item.1, copied)) = some payloads ∧
      ∀ key, Dict.find payloads key =
        if key ∈ keys then (source.fetch key).bind source.isolate else none
  | [], _ => ⟨[], rfl, fun _ => rfl⟩
  | first :: rest, h => by
      obtain ⟨payloads, hpayloads, hfind⟩ :=
        copies_sound fun key hkey => h key (List.mem_cons_of_mem first hkey)
      cases hfetch : source.fetch first with
      | none =>
        refine ⟨payloads, by rw [List.filterMap_cons, hfetch]; exact hpayloads, fun key => ?_⟩
        rw [hfind]
        by_cases hkey : key = first
        · subst hkey
          simp [hfetch]
        · simp [hkey]
      | some payload =>
        obtain ⟨copied, hcopied, -⟩ := h first List.mem_cons_self payload hfetch
        refine ⟨(first, copied) :: payloads, ?_, fun key => ?_⟩
        · rw [List.filterMap_cons, hfetch]
          simp only [Option.map_some, List.mapM_cons, hcopied, hpayloads]
          rfl
        · rw [Dict.find, hfind]
          by_cases hkey : key = first
          · subst hkey
            simp [hfetch, hcopied]
          · have hne : first ≠ key := fun h => hkey h.symm
            simp [hkey, hne]

omit [KeyText K] in
theorem fetchManyOnce_sound {keys : List K} (h : ∀ key ∈ keys, source.Sound key) :
    ∃ payloads, source.fetchManyOnce keys = .ok payloads ∧
      ∀ key, Dict.find payloads key =
        if key ∈ keys then (source.fetch key).bind source.isolate else none := by
  obtain ⟨payloads, hpayloads, hfind⟩ := copies_sound h
  refine ⟨payloads, ?_, hfind⟩
  rw [fetchManyOnce]
  simp only [hpayloads]
  rw [if_pos]
  refine List.all_eq_true.mpr fun item hitem => ?_
  obtain ⟨key, hkey, hmap⟩ := List.mem_filterMap.mp hitem
  obtain ⟨payload, -, rfl⟩ := Option.map_eq_some_iff.mp hmap
  exact decide_eq_true hkey

omit [KeyText K] in
theorem hasFreshValue_ok {returned : List K} {fresh : K → Except Raised Bool}
    (h : ∀ key ∈ returned, ∃ b, fresh key = .ok b) : ∀ keys : List K,
      ∃ b, Executor.hasFreshValue returned fresh keys = .ok b
  | [] => ⟨false, rfl⟩
  | key :: rest => by
      obtain ⟨b, hb⟩ := hasFreshValue_ok h rest
      rw [Executor.hasFreshValue]
      split
      · rename_i hkey
        obtain ⟨b', hb'⟩ := h key hkey
        rw [hb']
        cases b' with
        | true => exact ⟨true, rfl⟩
        | false => exact ⟨b, hb⟩
      · exact ⟨b, hb⟩

theorem content_answerFor {payloads : List (K × P)} {times : ChunkTimes} {key : K}
    (hsettled : source.Settled key)
    (hfind : Dict.find payloads key = (source.fetch key).bind source.isolate) :
    (source.answerFor payloads times key).content = source.verdict key := by
  rw [answerFor, verdict, hfind]
  cases hcopied : (source.fetch key).bind source.isolate with
  | none => rfl
  | some copied =>
    simp only [hsettled copied hcopied times.validatedAt 0]
    split <;> rfl

/-- A chunk for which nothing is raised gets a key its verdict, whenever it is finished. -/
theorem finishBatch_sound {chunk : List K} (h : ∀ key ∈ chunk, source.Sound key)
    (times : ChunkTimes) (b : Circuits) {key : K} (hsettled : source.Settled key) :
    ((source.finishBatch (Dict.fromKeys chunk) (source.groups chunk) times b).2.get? key).map
      BatchAnswer.content = if key ∈ chunk then some (source.verdict key) else none := by
  have hkeys : ∀ key ∈ Dict.fromKeys chunk, source.Sound key :=
    fun key hkey => h key (Dict.mem_fromKeys.mp hkey)
  obtain ⟨payloads, hpayloads, hfind⟩ := fetchManyOnce_sound hkeys
  have hrejected : (Dict.fromKeys chunk).filter (fun key => decide (key ∉ Dict.fromKeys chunk)) =
      [] := List.filter_eq_nil_iff.mpr fun key hkey => by simpa using Dict.mem_fromKeys.mp hkey
  -- A payload that is returned has been copied, and its freshness policy answers.
  have hfresh : ∀ key ∈ ((payloads.filter fun item =>
      !source.inFuture times.validatedAt item.2).map Prod.fst),
      ∃ fresh, (match Dict.find payloads key with
        | some payload => source.fresh times.freshAt key payload
        | none => .ok false) = .ok fresh := by
    intro key _
    rw [hfind]
    split
    · rename_i copied hcopied
      split at hcopied
      · rename_i hkey
        obtain ⟨payload, hfetch, hisolate⟩ := Option.bind_eq_some_iff.mp hcopied
        obtain ⟨copied', hcopied', hanswers⟩ := hkeys key hkey payload hfetch
        rw [hisolate, Option.some.injEq] at hcopied'
        subst hcopied'
        exact hanswers times.freshAt
      · cases hcopied
    · exact ⟨false, rfl⟩
  have hended := (Executor.recordGroups_spec source.name source.circuit times.recordedAt
    ((payloads.filter fun item => !source.inFuture times.validatedAt item.2).map Prod.fst)
    (fun key => match Dict.find payloads key with
      | some payload => source.fresh times.freshAt key payload
      | none => .ok false) (source.groups chunk) b).2
  rw [finishBatch, activeKeys_groups]
  simp only [hrejected, hpayloads]
  rcases hended with ⟨hok, -⟩ | ⟨error, pre, group, post, -, -, hraised, -⟩
  · rw [hok]
    split
    · rename_i hempty
      have hnot : key ∉ chunk := by
        rw [← Dict.mem_fromKeys, List.isEmpty_iff.mp hempty]
        exact List.not_mem_nil
      rw [if_neg hnot]
      rfl
    · dsimp only
      rw [Dict.get?_update, Dict.get?_comprehend]
      by_cases hkey : key ∈ chunk
      · have hmem : key ∈ Dict.fromKeys chunk := Dict.mem_fromKeys.mpr hkey
        have hanswer := hfind key
        rw [if_pos hmem] at hanswer
        rw [if_pos hmem, if_pos hkey, Option.some_or, Option.map_some,
          content_answerFor hsettled hanswer]
      · have hnot : key ∉ Dict.fromKeys chunk := fun hmem => hkey (Dict.mem_fromKeys.mp hmem)
        rw [if_neg hnot, if_neg hkey]
        rfl
  · obtain ⟨fresh, hanswers⟩ := hasFreshValue_ok hfresh group.2
    rw [hanswers] at hraised
    cases hraised

end BatchSource
namespace BatchDispatch
variable {s t : BatchDispatch K P} {e : BatchEvent K P}

/-- The results are those that some end of the chunk's call gives. -/
def Finished (source : BatchSource K P) (chunk : List K) (r : Dict K (BatchAnswer P)) : Prop :=
  ∃ times b, r = (source.finishBatch (Dict.fromKeys chunk) (source.groups chunk) times b).2

/-- `fetch_many` has been called for the chunk, if it has keys. -/
def calledFor : Option (ChunkStage K) → Bool
  | some (.fetching _) => true
  | some .finished => true
  | _ => false

/-- The stages, the calls of `fetch_many` and the answers fit together. -/
structure Staged (source : BatchSource K P) (s : BatchDispatch K P) : Prop where
  known : ∀ i stage, s.stages.get? i = some stage → i < s.chunks.length
  active : ∀ i chunk groups, s.chunks[i]? = some chunk →
    s.stages.get? i = some (.admitted groups) ∨ s.stages.get? i = some (.fetching groups) →
    groups = source.groups chunk
  called : ∀ i chunk, s.chunks[i]? = some chunk → (s.fetched.map Prod.fst).count i =
    if calledFor (s.stages.get? i) && !chunk.isEmpty then 1 else 0
  calls : ∀ call ∈ s.fetched, s.chunks[call.1]? = some call.2
  answered : ∀ pool, s.pool = some pool → ∀ i r, (i, r) ∈ pool.answers →
    s.stages.get? i = some .finished ∧ ∃ chunk, s.chunks[i]? = some chunk ∧ Finished source chunk r
  direct : s.pool = none → ∀ r, s.direct = some r →
    s.stages.get? 0 = some .finished ∧ ∃ chunk, s.chunks[0]? = some chunk ∧ Finished source chunk r
  finished : ∀ i, s.stages.get? i = some .finished →
    (∀ pool, s.pool = some pool → ∃ r, (i, r) ∈ pool.answers) ∧
      (s.pool = none → s.direct.isSome = true)

theorem staged_beforeCall (hdisabled : source.circuit.enabled = false) (h : Staged source s) {w : ℕ}
    {now : ℚ} (hs : s.step source (.beforeCall w now) = some t) : Staged source t := by
  simp only [step] at hs
  split at hs
  · rename_i i _
    split at hs
    · rename_i chunk hchunk hstage
      rw [admitGroups_disabled hdisabled] at hs
      cases hs
      have hne : ∀ j stage, s.stages.get? j = some stage → j ≠ i := by
        rintro j stage hj rfl
        rw [hstage] at hj
        cases hj
      have hkeep : ∀ j, j ≠ i → (s.stages.set i (.admitted (source.groups chunk))).get? j =
          s.stages.get? j := fun j hj => Dict.get?_set_ne _ _ hj
      refine ⟨fun j stage hj => ?_, fun j c groups hc hj => ?_, fun j c hc => ?_, h.calls,
        fun pool hpool j r hr => ?_, fun hpool r hr => ?_, fun j hj => ?_⟩
      · by_cases hji : j = i
        · subst hji
          exact (List.getElem?_eq_some_iff.mp hchunk).1
        · exact h.known j stage ((hkeep j hji).symm.trans hj)
      · by_cases hji : j = i
        · subst hji
          rw [hchunk, Option.some.injEq] at hc
          subst hc
          simp only [Dict.get?_set_self, Option.some.injEq, ChunkStage.admitted.injEq,
            reduceCtorEq, or_false] at hj
          exact hj.symm
        · simp only [hkeep j hji] at hj
          exact h.active j c groups hc hj
      · by_cases hji : j = i
        · subst hji
          have hold := h.called j c hc
          simp only [Dict.get?_set_self]
          rw [hstage] at hold
          exact hold
        · simp only [hkeep j hji]
          exact h.called j c hc
      · obtain ⟨hj, hrest⟩ := h.answered pool hpool j r hr
        exact ⟨(hkeep j (hne j _ hj)).trans hj, hrest⟩
      · obtain ⟨hj, hrest⟩ := h.direct hpool r hr
        exact ⟨(hkeep 0 (hne 0 _ hj)).trans hj, hrest⟩
      · by_cases hji : j = i
        · subst hji
          simp only [Dict.get?_set_self, Option.some.injEq, reduceCtorEq] at hj
        · exact h.finished j ((hkeep j hji).symm.trans hj)
    · cases hs
  · cases hs

theorem staged_fetchMany (hnodup : ∀ chunk ∈ s.chunks, chunk.Nodup) (h : Staged source s) {w : ℕ}
    (hs : s.step source (.fetchMany w) = some t) : Staged source t := by
  simp only [step] at hs
  split at hs
  · rename_i i _
    split at hs
    · rename_i chunk active hchunk hstage
      obtain rfl := h.active i chunk active hchunk (.inl hstage)
      rw [BatchSource.activeKeys_groups,
        Dict.fromKeys_of_nodup (hnodup chunk (List.mem_of_getElem? hchunk))] at hs
      split at hs
      · cases hs
      · rename_i hempty
        cases hs
        have hne : ∀ j, s.stages.get? j = some .finished → j ≠ i := by
          rintro j hj rfl
          rw [hstage] at hj
          cases hj
        have hkeep : ∀ j, j ≠ i → (s.stages.set i (.fetching (source.groups chunk))).get? j =
            s.stages.get? j := fun j hj => Dict.get?_set_ne _ _ hj
        refine ⟨fun j stage hj => ?_, fun j c groups hc hj => ?_, fun j c hc => ?_,
          fun call hcall => ?_, fun pool hpool j r hr => ?_, fun hpool r hr => ?_, fun j hj => ?_⟩
        · by_cases hji : j = i
          · subst hji
            exact (List.getElem?_eq_some_iff.mp hchunk).1
          · exact h.known j stage ((hkeep j hji).symm.trans hj)
        · by_cases hji : j = i
          · subst hji
            rw [hchunk, Option.some.injEq] at hc
            subst hc
            simp only [Dict.get?_set_self, Option.some.injEq, ChunkStage.fetching.injEq,
              reduceCtorEq, false_or] at hj
            exact hj.symm
          · simp only [hkeep j hji] at hj
            exact h.active j c groups hc hj
        · have hold := h.called j c hc
          rw [List.map_append, List.count_append, List.map_singleton, List.count_singleton]
          by_cases hji : j = i
          · subst hji
            rw [hchunk, Option.some.injEq] at hc
            subst hc
            rw [hstage] at hold
            simp only [calledFor, Bool.false_and, Bool.false_eq_true, if_false] at hold
            simp [Dict.get?_set_self, calledFor, hold, hempty]
          · rw [hkeep j hji, hold]
            have hij : (i == j) = false := by simpa using fun hij => hji hij.symm
            simp [hij]
        · rcases List.mem_append.mp hcall with hcall | hcall
          · exact h.calls call hcall
          · rw [List.mem_singleton.mp hcall]
            exact hchunk
        · obtain ⟨hj, hrest⟩ := h.answered pool hpool j r hr
          exact ⟨(hkeep j (hne j hj)).trans hj, hrest⟩
        · obtain ⟨hj, hrest⟩ := h.direct hpool r hr
          exact ⟨(hkeep 0 (hne 0 hj)).trans hj, hrest⟩
        · by_cases hji : j = i
          · subst hji
            simp only [Dict.get?_set_self, Option.some.injEq, reduceCtorEq] at hj
          · exact h.finished j ((hkeep j hji).symm.trans hj)
    · cases hs
  · cases hs

omit [DecidableEq K] [KeyText K] in
theorem indexOf_pool {w i : ℕ} {pool : WorkerPool (List K) (Dict K (BatchAnswer P)) Unit}
    (hpool : s.pool = some pool) (h : s.indexOf w = some i) :
    pool.workers[w]? = some (.operating i) := by
  unfold indexOf at h
  rw [hpool] at h
  dsimp only at h
  split at h
  · rename_i hw
    cases h
    exact hw
  · cases h

omit [DecidableEq K] [KeyText K] in
theorem indexOf_direct {w i : ℕ} (hpool : s.pool = none) (h : s.indexOf w = some i) :
    i = 0 ∧ w = 0 ∧ s.direct = none := by
  unfold indexOf at h
  rw [hpool] at h
  dsimp only at h
  split at h
  · rename_i hw
    cases h
    exact ⟨rfl, hw.1, Option.isNone_iff_eq_none.mp hw.2⟩
  · cases h

/-- A chunk whose `fetch_many` has been called comes back with results of its own. -/
theorem staged_deliver (h : Staged source s) {w i : ℕ} {chunk : List K}
    {r : Circuits × Dict K (BatchAnswer P)} (hindex : s.indexOf w = some i)
    (hchunk : s.chunks[i]? = some chunk)
    (hcount : (s.fetched.map Prod.fst).count i = if !chunk.isEmpty then 1 else 0)
    (hfinished : Finished source chunk r.2) (hs : s.deliver w i r = some t) : Staged source t := by
  have hself : (s.stages.set i .finished).get? i = some .finished := Dict.get?_set_self _ _ _
  have hkeep : ∀ j, j ≠ i → (s.stages.set i .finished).get? j = s.stages.get? j :=
    fun j hj => Dict.get?_set_ne _ _ hj
  have hstill : ∀ j, s.stages.get? j = some .finished →
      (s.stages.set i .finished).get? j = some .finished := by
    intro j hj
    by_cases hji : j = i
    · rw [hji]
      exact hself
    · rw [hkeep j hji]
      exact hj
  -- All but the pool and the result is the same in both modes.
  have hknown : ∀ j stage, (s.stages.set i .finished).get? j = some stage →
      j < s.chunks.length := by
    intro j stage hj
    by_cases hji : j = i
    · rw [hji]
      exact (List.getElem?_eq_some_iff.mp hchunk).1
    · exact h.known j stage ((hkeep j hji).symm.trans hj)
  have hactive : ∀ j c groups, s.chunks[j]? = some c →
      (s.stages.set i .finished).get? j = some (.admitted groups) ∨
        (s.stages.set i .finished).get? j = some (.fetching groups) →
      groups = source.groups c := by
    intro j c groups hc hj
    by_cases hji : j = i
    · subst hji
      rw [hself] at hj
      rcases hj with hj | hj <;> cases hj
    · rw [hkeep j hji] at hj
      exact h.active j c groups hc hj
  have hcalled : ∀ j c, s.chunks[j]? = some c → (s.fetched.map Prod.fst).count j =
      if calledFor ((s.stages.set i .finished).get? j) && !c.isEmpty then 1 else 0 := by
    intro j c hc
    by_cases hji : j = i
    · subst hji
      rw [hchunk, Option.some.injEq] at hc
      subst hc
      rw [hself, hcount]
      rfl
    · rw [hkeep j hji]
      exact h.called j c hc
  unfold deliver at hs
  dsimp only at hs
  cases hpool : s.pool with
  | none =>
    rw [hpool] at hs
    cases hs
    obtain ⟨rfl, -, hdirect⟩ := indexOf_direct hpool hindex
    refine ⟨hknown, hactive, hcalled, h.calls, fun pool hp => ?_, fun _ r' hr => ?_,
      fun j hj => ⟨fun pool hp => ?_, fun _ => rfl⟩⟩
    · cases hp
    · cases hr
      exact ⟨hself, chunk, hchunk, hfinished⟩
    · cases hp
  | some pool =>
    rw [hpool] at hs
    obtain ⟨pool', hpool', rfl⟩ := Option.map_eq_some_iff.mp hs
    have hworker := indexOf_pool hpool hindex
    have hanswers := WorkerPool.step_answers hpool'
    rw [WorkerPool.answering, hworker] at hanswers
    refine ⟨hknown, hactive, hcalled, h.calls, fun pool₁ hp j r' hr => ?_, by simp,
      fun j hj => ⟨fun pool₁ hp => ?_, by simp⟩⟩
    · cases hp
      rw [hanswers, List.mem_append, List.mem_singleton, Prod.mk.injEq] at hr
      rcases hr with hr | ⟨rfl, rfl⟩
      · obtain ⟨hj, hrest⟩ := h.answered pool hpool j r' hr
        exact ⟨hstill j hj, hrest⟩
      · exact ⟨hself, chunk, hchunk, hfinished⟩
    · cases hp
      rw [hanswers]
      by_cases hji : j = i
      · exact ⟨r.2, List.mem_append_right _ (List.mem_singleton.mpr (by rw [hji]))⟩
      · obtain ⟨r', hr⟩ := (h.finished j ((hkeep j hji).symm.trans hj)).1 pool hpool
        exact ⟨r', List.mem_append_left _ hr⟩

theorem staged_finish (hnodup : ∀ chunk ∈ s.chunks, chunk.Nodup) (h : Staged source s) {w : ℕ}
    {times : ChunkTimes} (hs : s.step source (.finish w times) = some t) : Staged source t := by
  simp only [step] at hs
  split at hs
  · rename_i i hindex
    split at hs
    · rename_i chunk active hchunk hstage
      obtain rfl := h.active i chunk active hchunk (.inl hstage)
      split at hs
      · rename_i hempty
        refine staged_deliver h hindex hchunk ?_ ⟨times, s.circuits, rfl⟩ hs
        rw [BatchSource.activeKeys_groups,
          Dict.fromKeys_of_nodup (hnodup chunk (List.mem_of_getElem? hchunk))] at hempty
        rw [h.called i chunk hchunk, hstage, hempty]
        rfl
      · cases hs
    · rename_i chunk active hchunk hstage
      obtain rfl := h.active i chunk active hchunk (.inr hstage)
      refine staged_deliver h hindex hchunk ?_ ⟨times, s.circuits, rfl⟩ hs
      rw [h.called i chunk hchunk, hstage]
      rfl
    · cases hs
  · cases hs

omit [DecidableEq K] [KeyText K] in
/-- A step of the pool that is not left to a chunk answers for none. -/
theorem permits_answering {pool : WorkerPool (List K) (Dict K (BatchAnswer P)) Unit}
    {e : PoolEvent (Dict K (BatchAnswer P)) Unit} (h : permits pool e = true) :
    pool.answering e = [] := by
  cases e <;> first | rfl | cases h

theorem staged_step (hdisabled : source.circuit.enabled = false)
    (hnodup : ∀ chunk ∈ s.chunks, chunk.Nodup) (h : Staged source s)
    (hs : s.step source e = some t) : Staged source t := by
  cases e with
  | pool e =>
    simp only [step] at hs
    split at hs
    · rename_i pool hpool
      split at hs
      · rename_i hpermits
        obtain ⟨pool', hpool', rfl⟩ := Option.map_eq_some_iff.mp hs
        have hanswers := WorkerPool.step_answers hpool'
        rw [permits_answering hpermits, List.append_nil] at hanswers
        refine ⟨h.known, h.active, h.called, h.calls, fun pool₁ hp => ?_, nofun,
          fun j hj => ⟨fun pool₁ hp => ?_, nofun⟩⟩
        · cases hp
          rw [hanswers]
          exact h.answered pool hpool
        · cases hp
          rw [hanswers]
          exact (h.finished j hj).1 pool hpool
      · cases hs
    · cases hs
  | beforeCall w now => exact staged_beforeCall hdisabled h hs
  | fetchMany w => exact staged_fetchMany hnodup h hs
  | finish w times => exact staged_finish hnodup h hs

/-! ## Runs of an attempt -/

theorem size_set_new {V : Type} {d : Dict ℕ V} {i : ℕ} (v : V) (h : d.get? i = none) :
    (d.set i v).size = d.size + 1 := by
  have hkeys := congrArg List.length (Dict.keys_set_new (Dict.get?_eq_none.mp h) v)
  simpa [Dict.keys, Dict.size] using hkeys

theorem size_set_old {V : Type} {d : Dict ℕ V} {i : ℕ} {v : V} (w : V) (h : d.get? i = some v) :
    (d.set i w).size = d.size := by
  have hkeys := congrArg List.length (Dict.keys_set_of_mem (Dict.mem_keys_of_get? h) w)
  simpa [Dict.keys, Dict.size] using hkeys

/-- What a run of `attempt` keeps: the run of its pool, and how many steps of each kind. -/
structure Chunking (source : BatchSource K P) (start : BatchDispatch K P)
    (es : List (BatchEvent K P)) (s : BatchDispatch K P) : Prop where
  chunks : s.chunks = start.chunks
  staged : Staged source s
  direct : start.pool = none → s.pool = none ∧ es.length =
    s.stages.size + s.fetched.length + if s.direct.isSome then 1 else 0
  pooled : ∀ pool₀, start.pool = some pool₀ → ∃ pool es', s.pool = some pool ∧
    Run WorkerPool.step pool₀ es' pool ∧
    es.length = es'.length + s.stages.size + s.fetched.length ∧
    (.cancelCaller ∈ es' → .pool .cancelCaller ∈ es) ∧
    ∀ w error leaving, .raises w error leaving ∈ es' → .pool .cancelCaller ∈ es

/-- A step that leaves the pool alone. -/
theorem Chunking.beside {start : BatchDispatch K P} {es : List (BatchEvent K P)}
    (h : Chunking source start es s) (hstaged : Staged source t) (hchunks : t.chunks = s.chunks)
    (hpool : t.pool = s.pool) (hdirect : t.direct = s.direct)
    (hcount : t.stages.size + t.fetched.length = s.stages.size + s.fetched.length + 1) :
    Chunking source start (es ++ [e]) t := by
  refine ⟨hchunks.trans h.chunks, hstaged, fun hnone => ?_, fun pool₀ hsome => ?_⟩
  · obtain ⟨hp, hlength⟩ := h.direct hnone
    refine ⟨hpool.trans hp, ?_⟩
    rw [List.length_append, List.length_singleton, hlength, hdirect]
    omega
  · obtain ⟨pool, es', hp, hrun, hlength, hcancel, hraises⟩ := h.pooled pool₀ hsome
    refine ⟨pool, es', hpool.trans hp, hrun, ?_, fun hc => List.mem_append_left _ (hcancel hc),
      fun w error leaving hr => List.mem_append_left _ (hraises w error leaving hr)⟩
    rw [List.length_append, List.length_singleton, hlength]
    omega

/-- A step of the pool. -/
theorem Chunking.within {start : BatchDispatch K P} {es : List (BatchEvent K P)}
    {pool pool' : WorkerPool (List K) (Dict K (BatchAnswer P)) Unit}
    {e' : PoolEvent (Dict K (BatchAnswer P)) Unit} (h : Chunking source start es s)
    (hstaged : Staged source t) (hchunks : t.chunks = s.chunks) (hpool : s.pool = some pool)
    (hpool' : t.pool = some pool') (hs : pool.step e' = some pool')
    (hcount : t.stages.size + t.fetched.length = s.stages.size + s.fetched.length)
    (hcancel : e' = .cancelCaller → e = .pool .cancelCaller)
    (hraises : ∀ w error leaving, e' = .raises w error leaving → .pool .cancelCaller ∈ es) :
    Chunking source start (es ++ [e]) t := by
  refine ⟨hchunks.trans h.chunks, hstaged, fun hnone => ?_, fun pool₀ hsome => ?_⟩
  · rw [(h.direct hnone).1] at hpool
    cases hpool
  · obtain ⟨pool₁, es', hp, hrun, hlength, hc, hr⟩ := h.pooled pool₀ hsome
    rw [hpool, Option.some.injEq] at hp
    subst hp
    refine ⟨pool', es' ++ [e'], hpool', hrun.append (.cons trivial hs (.nil pool')), ?_,
      fun hmem => ?_, fun w error leaving hmem => ?_⟩
    · rw [List.length_append, List.length_append, List.length_singleton, List.length_singleton,
        hlength]
      omega
    · rcases List.mem_append.mp hmem with hmem | hmem
      · exact List.mem_append_left _ (hc hmem)
      · rw [hcancel (List.mem_singleton.mp hmem).symm]
        exact List.mem_append_right _ List.mem_cons_self
    · rcases List.mem_append.mp hmem with hmem | hmem
      · exact List.mem_append_left _ (hr w error leaving hmem)
      · exact List.mem_append_left _ (hraises w error leaving (List.mem_singleton.mp hmem).symm)

/-- A pool is told to stop only after the caller was cancelled, or an operation raised. -/
theorem stopping_cause {A R E : Type} {pool₀ pool : WorkerPool A R E} {threaded : Bool}
    {maxTasks : ℕ} {items : List A} {es : List (PoolEvent R E)}
    (hstart : pool₀ = .new threaded maxTasks items) (hmax : 1 ≤ maxTasks)
    (hrun : Run WorkerPool.step pool₀ es pool) (hstopping : pool.stopping = true) :
    .cancelCaller ∈ es ∨ ∃ w error leaving, .raises w error leaving ∈ es := by
  subst hstart
  obtain ⟨herrors, hcancelled⟩ := WorkerPool.history hrun
  have hawaited := (WorkerPool.dispatching_run hmax hrun).awaited
  rcases hawaited.cause hstopping with hc | ⟨error, he⟩
  · exact .inl (hcancelled.mp hc)
  · rcases hawaited.reason error he with herror | ⟨-, hc⟩
    · obtain ⟨w, leaving, hmem⟩ := (herrors error).mp herror
      exact .inr ⟨w, error, leaving, hmem⟩
    · exact .inl (hcancelled.mp hc)

omit [DecidableEq K] [KeyText K] in
theorem deliver_cases {w i : ℕ} {r : Circuits × Dict K (BatchAnswer P)}
    (hs : s.deliver w i r = some t) :
    t.chunks = s.chunks ∧ t.stages = s.stages.set i .finished ∧ t.fetched = s.fetched ∧
      ((s.pool = none ∧ t.pool = none ∧ t.direct = some r.2) ∨
        ∃ pool pool', s.pool = some pool ∧ t.pool = some pool' ∧
          pool.step (.returns w r.2) = some pool') := by
  unfold deliver at hs
  dsimp only at hs
  cases hpool : s.pool with
  | none =>
    rw [hpool] at hs
    cases hs
    exact ⟨rfl, rfl, rfl, .inl ⟨rfl, rfl, rfl⟩⟩
  | some pool =>
    rw [hpool] at hs
    obtain ⟨pool', hpool', rfl⟩ := Option.map_eq_some_iff.mp hs
    exact ⟨rfl, rfl, rfl, .inr ⟨pool, pool', rfl, rfl, hpool'⟩⟩

/-- The end of a chunk. -/
theorem Chunking.delivered {start : BatchDispatch K P} {es : List (BatchEvent K P)} {w i : ℕ}
    {stage : ChunkStage K} {r : Circuits × Dict K (BatchAnswer P)}
    (h : Chunking source start es s) (hstaged : Staged source t) (hindex : s.indexOf w = some i)
    (hstage : s.stages.get? i = some stage) (hs : s.deliver w i r = some t) :
    Chunking source start (es ++ [e]) t := by
  obtain ⟨hchunks, hstages, hfetched, hmode⟩ := deliver_cases hs
  have hsize : t.stages.size = s.stages.size := by rw [hstages, size_set_old _ hstage]
  rcases hmode with ⟨hpool, hpool', hdirect⟩ | ⟨pool, pool', hpool, hpool', hstep⟩
  · refine ⟨hchunks.trans h.chunks, hstaged, fun hnone => ⟨hpool', ?_⟩, fun pool₀ hsome => ?_⟩
    · obtain ⟨-, hlength⟩ := h.direct hnone
      rw [(indexOf_direct hpool hindex).2.2] at hlength
      rw [List.length_append, List.length_singleton, hlength, hdirect, hsize, hfetched]
      rfl
    · obtain ⟨pool, -, hp, -⟩ := h.pooled pool₀ hsome
      rw [hpool] at hp
      cases hp
  · exact h.within hstaged hchunks hpool hpool' hstep (by rw [hsize, hfetched]) nofun nofun

theorem chunking_step {start : BatchDispatch K P} {maxTasks : ℕ} {es : List (BatchEvent K P)}
    (hdisabled : source.circuit.enabled = false) (hnodup : ∀ chunk ∈ start.chunks, chunk.Nodup)
    (hmax : 1 ≤ maxTasks)
    (hpools : ∀ pool₀, start.pool = some pool₀ → pool₀ = .new false maxTasks start.chunks)
    (h : Chunking source start es s) (hs : s.step source e = some t) :
    Chunking source start (es ++ [e]) t := by
  have hstaged := staged_step hdisabled (h.chunks ▸ hnodup) h.staged hs
  cases e with
  | pool e =>
    simp only [step] at hs
    split at hs
    · rename_i pool hpool
      split at hs
      · rename_i hpermits
        obtain ⟨pool', hpool', rfl⟩ := Option.map_eq_some_iff.mp hs
        refine h.within hstaged rfl hpool rfl hpool' rfl (fun he => by rw [he])
          fun w error leaving he => ?_
        -- An operation of this pool raises only after the pool was told to stop.
        subst he
        have hstopping : pool.stopping = true := by
          simp only [permits, Bool.and_eq_true] at hpermits
          exact hpermits.2
        cases hstart : start.pool with
        | none =>
          rw [(h.direct hstart).1] at hpool
          cases hpool
        | some pool₀ =>
          obtain ⟨pool₁, es', hp, hrun, -, hcancel, hraises⟩ := h.pooled pool₀ hstart
          rw [hpool, Option.some.injEq] at hp
          subst hp
          rcases stopping_cause (hpools pool₀ hstart) hmax hrun hstopping with hc | ⟨w, f, l, hr⟩
          · exact hcancel hc
          · exact hraises w f l hr
      · cases hs
    · cases hs
  | beforeCall w now =>
    simp only [step] at hs
    split at hs
    · rename_i i _
      split at hs
      · rename_i chunk hchunk hstage
        cases hs
        refine h.beside hstaged rfl rfl rfl ?_
        dsimp only
        rw [size_set_new _ hstage]
        omega
      · cases hs
    · cases hs
  | fetchMany w =>
    simp only [step] at hs
    split at hs
    · rename_i i _
      split at hs
      · rename_i chunk active hchunk hstage
        split at hs
        · cases hs
        · cases hs
          refine h.beside hstaged rfl rfl rfl ?_
          rw [size_set_old _ hstage, List.length_append, List.length_singleton]
          omega
      · cases hs
    · cases hs
  | finish w times =>
    simp only [step] at hs
    split at hs
    · rename_i i hindex
      split at hs
      · rename_i chunk active hchunk hstage
        split at hs
        · exact h.delivered hstaged hindex hstage hs
        · cases hs
      · rename_i chunk active hchunk hstage
        exact h.delivered hstaged hindex hstage hs
      · cases hs
    · cases hs

omit [KeyText K] in
/-- The chunks are the keys without repetitions, cut to the size of the source. -/
theorem attempt_spec (source : BatchSource K P) (keys : List K) (maxTasks : ℕ) (b : Circuits) :
    (attempt source keys maxTasks b).chunks.flatten = Dict.fromKeys keys ∧
      (∀ size, source.maxBatchSize = some size →
        ∀ chunk ∈ (attempt source keys maxTasks b).chunks, chunk.length ≤ size) ∧
      (attempt source keys maxTasks b).stages = .empty ∧
      (attempt source keys maxTasks b).fetched = [] ∧
      (attempt source keys maxTasks b).direct = none ∧
      ((attempt source keys maxTasks b).pool = none ∧
          (attempt source keys maxTasks b).chunks = [Dict.fromKeys keys] ∨
        (attempt source keys maxTasks b).pool =
          some (.new false maxTasks (attempt source keys maxTasks b).chunks)) := by
  have hchunks : ∀ (size : ℕ) (fuel : ℕ) (l : List K), ∀ chunk ∈ chunksOf size fuel l,
      chunk.length ≤ size := by
    intro size fuel
    induction fuel with
    | zero => exact fun l chunk h => nomatch h
    | succ fuel ih =>
      intro l chunk h
      cases l with
      | nil => cases h
      | cons key l =>
        simp only [chunksOf, List.mem_cons] at h
        rcases h with rfl | h
        · exact List.length_take_le _ _
        · exact ih _ chunk h
  have hwhole : [Dict.fromKeys keys].flatten = Dict.fromKeys keys := by simp
  unfold attempt
  dsimp only
  split
  · rename_i hsize
    refine ⟨hwhole, fun size h => ?_, rfl, rfl, rfl, .inl ⟨rfl, rfl⟩⟩
    rw [hsize] at h
    cases h
  · rename_i size hsize
    split
    · rename_i hfits
      refine ⟨hwhole, fun size' h chunk hchunk => ?_, rfl, rfl, rfl, .inl ⟨rfl, rfl⟩⟩
      rw [hsize, Option.some.injEq] at h
      subst h
      rw [List.mem_singleton.mp hchunk]
      exact hfits
    · refine ⟨flatten_chunksOf size.pos _ _ (Nat.le_refl _), fun size' h chunk hchunk => ?_, rfl,
        rfl, rfl, .inr rfl⟩
      rw [hsize, Option.some.injEq] at h
      subst h
      exact hchunks _ _ _ chunk hchunk

section
variable {keys : List K} {maxTasks : ℕ} {b : Circuits} {es : List (BatchEvent K P)}

omit [KeyText K] in
theorem attempt_nodup (source : BatchSource K P) :
    ∀ chunk ∈ (attempt source keys maxTasks b).chunks, chunk.Nodup := by
  have hflat := (attempt_spec source keys maxTasks b).1
  have hnodup := Dict.nodup_fromKeys keys
  rw [← hflat, List.nodup_flatten] at hnodup
  exact hnodup.1

theorem chunking_run (hdisabled : source.circuit.enabled = false) (hmax : 1 ≤ maxTasks)
    (hrun : Run (step source) (attempt source keys maxTasks b) es s) :
    Chunking source (attempt source keys maxTasks b) es s := by
  obtain ⟨-, -, hstages, hfetched, hdirect, hmode⟩ := attempt_spec source keys maxTasks b
  have hpools : ∀ pool₀, (attempt source keys maxTasks b).pool = some pool₀ →
      pool₀ = .new false maxTasks (attempt source keys maxTasks b).chunks := by
    intro pool₀ hpool₀
    rcases hmode with ⟨hnone, -⟩ | hsome
    · rw [hnone] at hpool₀
      cases hpool₀
    · rw [hsome, Option.some.injEq] at hpool₀
      exact hpool₀.symm
  refine hrun.history (P := Chunking source (attempt source keys maxTasks b)) ?_
    fun ls t e u _ _ hs h => chunking_step hdisabled (attempt_nodup source) hmax hpools h hs
  refine ⟨rfl, ⟨fun i stage h => ?_, fun i c g _ h => ?_, fun i c _ => ?_, fun call h => ?_,
    fun pool hpool i r hr => ?_, fun _ r hr => ?_, fun i h => ?_⟩, fun hnone => ⟨hnone, ?_⟩,
    fun pool₀ hpool₀ => ⟨pool₀, [], hpool₀, .nil pool₀, ?_, nofun, nofun⟩⟩
  · rw [hstages] at h
    cases h
  · rw [hstages] at h
    rcases h with h | h <;> cases h
  · rw [hstages, hfetched]
    rfl
  · rw [hfetched] at h
    cases h
  · rw [hpools pool hpool] at hr
    cases hr
  · rw [hdirect] at hr
    cases hr
  · rw [hstages] at h
    cases h
  · rw [hstages, hfetched, hdirect]
    rfl
  · rw [hstages, hfetched]
    rfl

/-! ## The calls of `fetch_many` -/

/-- The key lists of the calls are chunks, each of them once. -/
theorem Chunking.fetched {start : BatchDispatch K P} (h : Chunking source start es s) :
    (s.fetched.map Prod.fst).Nodup ∧ (∀ i ∈ s.fetched.map Prod.fst, i < start.chunks.length) ∧
      s.fetched.map Prod.snd =
        (s.fetched.map Prod.fst).map fun i => start.chunks.getD i [] := by
  have hget : ∀ call ∈ s.fetched, start.chunks[call.1]? = some call.2 := by
    intro call hcall
    rw [← h.chunks]
    exact h.staged.calls call hcall
  refine ⟨List.nodup_iff_count_le_one.mpr fun i => ?_, fun i hi => ?_, ?_⟩
  · by_cases hi : i ∈ s.fetched.map Prod.fst
    · obtain ⟨call, hcall, rfl⟩ := List.mem_map.mp hi
      rw [h.staged.called _ _ (h.staged.calls call hcall)]
      split <;> omega
    · rw [List.count_eq_zero.mpr hi]
      omega
  · obtain ⟨call, hcall, rfl⟩ := List.mem_map.mp hi
    exact (List.getElem?_eq_some_iff.mp (hget call hcall)).1
  · rw [List.map_map]
    refine List.map_congr_left fun call hcall => ?_
    rw [Function.comp_apply, List.getD_eq_getElem?_getD, hget call hcall, Option.getD_some]

theorem map_getD_range {α : Type} (l : List α) (d : α) :
    (List.range l.length).map (fun i => l.getD i d) = l := by
  refine List.ext_getElem (by simp) fun i h₁ h₂ => ?_
  rw [List.getElem_map, List.getElem_range, List.getD_eq_getElem?_getD,
    List.getElem?_eq_getElem h₂, Option.getD_some]

/-- The calls together ask for the keys of some chunks. -/
theorem Chunking.asked {start : BatchDispatch K P} (h : Chunking source start es s) :
    ∃ asked, (s.fetched.map Prod.snd).Perm asked ∧ asked.Sublist start.chunks := by
  obtain ⟨hnodup, hrange, hmap⟩ := h.fetched
  have hsub : (s.fetched.map Prod.fst).Subperm (List.range start.chunks.length) :=
    List.subperm_of_subset hnodup fun i hi => List.mem_range.mpr (hrange i hi)
  obtain ⟨indices, hperm, hsublist⟩ := hsub
  refine ⟨indices.map fun i => start.chunks.getD i [], ?_, ?_⟩
  · rw [hmap]
    exact (hperm.map _).symm
  · have := hsublist.map fun i => start.chunks.getD i []
    rwa [map_getD_range] at this

/-- When every chunk has come back, all keys have been asked for. -/
theorem Chunking.asked_all {start : BatchDispatch K P} (h : Chunking source start es s)
    (hall : ∀ i < start.chunks.length, s.stages.get? i = some .finished) :
    (s.fetched.map Prod.snd).flatten.Perm start.chunks.flatten := by
  obtain ⟨hnodup, hrange, hmap⟩ := h.fetched
  have hchunk : ∀ i (hlt : i < start.chunks.length), s.chunks[i]? = some start.chunks[i] := by
    intro i hlt
    rw [h.chunks]
    exact List.getElem?_eq_getElem hlt
  have hindices : (s.fetched.map Prod.fst).Perm ((List.range start.chunks.length).filter
      fun i => !(start.chunks.getD i []).isEmpty) := by
    refine (List.perm_ext_iff_of_nodup hnodup (List.nodup_range.filter _)).mpr fun i => ?_
    rw [List.mem_filter, List.mem_range]
    constructor
    · intro hi
      have hlt := hrange i hi
      refine ⟨hlt, ?_⟩
      have hcount := h.staged.called i _ (hchunk i hlt)
      have hpos := List.count_pos_iff.mpr hi
      rw [List.getD_eq_getElem?_getD, List.getElem?_eq_getElem hlt, Option.getD_some]
      by_contra hempty
      rw [Bool.not_eq_true] at hempty
      rw [hempty, Bool.and_false] at hcount
      simp at hcount
      omega
    · rintro ⟨hlt, hkeys⟩
      rw [List.getD_eq_getElem?_getD, List.getElem?_eq_getElem hlt, Option.getD_some] at hkeys
      have hcount := h.staged.called i _ (hchunk i hlt)
      rw [hall i hlt, hkeys] at hcount
      exact List.count_pos_iff.mp (hcount ▸ Nat.one_pos)
  have hflat : ∀ l : List ℕ, ((l.filter fun i => !(start.chunks.getD i []).isEmpty).map
      fun i => start.chunks.getD i []).flatten =
        (l.map fun i => start.chunks.getD i []).flatten := by
    intro l
    induction l with
    | nil => rfl
    | cons i l ih =>
      rw [List.filter_cons, List.map_cons, List.flatten_cons]
      split
      · rw [List.map_cons, List.flatten_cons, ih]
      · rename_i hempty
        rw [Bool.not_eq_true, Bool.not_eq_false', List.isEmpty_iff] at hempty
        rw [hempty, ih, List.nil_append]
  have hperm := (hindices.map fun i => start.chunks.getD i []).flatten
  rwa [← hmap, hflat, map_getD_range] at hperm

/-! ## The end of an attempt -/

/-- The merged results of chunks that give a key of theirs its verdict. -/
theorem merge_verdicts {key : K} : ∀ (results : List (Dict K (BatchAnswer P)))
    (chunks : List (List K)), results.length = chunks.length →
    (∀ (i : ℕ) (r : Dict K (BatchAnswer P)) (chunk : List K), results[i]? = some r →
      chunks[i]? = some chunk → (r.get? key).map BatchAnswer.content =
        if key ∈ chunk then some (source.verdict key) else none) →
    ∀ d : Dict K (BatchAnswer P),
      ((results.foldl Dict.update d).get? key).map BatchAnswer.content =
        if key ∈ chunks.flatten then some (source.verdict key)
        else (d.get? key).map BatchAnswer.content
  | [], [], _, _, d => by simp
  | [], _ :: _, hlength, _, _ => nomatch hlength
  | _ :: _, [], hlength, _, _ => nomatch hlength
  | r :: results, chunk :: chunks, hlength, h, d => by
      rw [List.foldl_cons, merge_verdicts results chunks (Nat.succ.inj hlength)
        (fun i r' c hr hc => h (i + 1) r' c hr hc)]
      simp only [List.flatten_cons, List.mem_append]
      have hfirst := h 0 r chunk rfl rfl
      by_cases hrest : key ∈ chunks.flatten
      · rw [if_pos hrest, if_pos (.inr hrest)]
      · rw [if_neg hrest, Dict.get?_update]
        by_cases hkey : key ∈ chunk
        · rw [if_pos hkey] at hfirst
          obtain ⟨answer, hanswer, hcontent⟩ := Option.map_eq_some_iff.mp hfirst
          rw [if_pos (.inl hkey), hanswer, Option.some_or, Option.map_some, hcontent]
        · rw [if_neg hkey, Option.map_eq_none_iff] at hfirst
          rw [if_neg (fun hor => hor.elim hkey hrest), hfirst, Option.none_or]

/-- The results, once the call has returned: each from the end of its chunk. -/
theorem returned_results {result : Dict K (BatchAnswer P)} (hmax : 1 ≤ maxTasks)
    (h : Chunking source (attempt source keys maxTasks b) es s)
    (hreturned : s.returned = some result) :
    (∀ i < (attempt source keys maxTasks b).chunks.length, s.stages.get? i = some .finished) ∧
      ((∀ key ∈ keys, source.Sound key) → ∀ key, source.Settled key →
        (result.get? key).map BatchAnswer.content =
          if key ∈ keys then some (source.verdict key) else none) := by
  obtain ⟨hflat, -, -, -, -, hmode⟩ := attempt_spec source keys maxTasks b
  have hmem : ∀ {chunk : List K} {key : K}, chunk ∈ (attempt source keys maxTasks b).chunks →
      key ∈ chunk → key ∈ keys := by
    intro chunk key hchunk hkey
    rw [← Dict.mem_fromKeys, ← hflat]
    exact List.mem_flatten.mpr ⟨chunk, hchunk, hkey⟩
  rcases hmode with ⟨hnone, hchunks⟩ | hsome
  · obtain ⟨hpool, -⟩ := h.direct hnone
    rw [returned, hpool] at hreturned
    obtain ⟨hstage, chunk, hchunk, times, b', rfl⟩ := h.staged.direct hpool result hreturned
    rw [h.chunks, hchunks, List.getElem?_cons_zero, Option.some.injEq] at hchunk
    subst hchunk
    refine ⟨fun i hi => ?_, fun hsound key hsettled => ?_⟩
    · rw [hchunks, List.length_singleton, Nat.lt_one_iff] at hi
      rw [hi]
      exact hstage
    · rw [BatchSource.finishBatch_sound (fun key hkey => hsound key (Dict.mem_fromKeys.mp hkey))
        times b' hsettled]
      simp only [Dict.mem_fromKeys]
  · obtain ⟨pool, es', hpool, hrun, -⟩ := h.pooled _ hsome
    rw [returned, hpool] at hreturned
    dsimp only at hreturned
    split at hreturned
    · rename_i results hcaller
      cases hreturned
      obtain ⟨-, -, -, hlength, hget⟩ :=
        (WorkerPool.ordered_map hmax hrun).returned results hcaller
      have hanswered : ∀ i r, results[i]? = some r → s.stages.get? i = some .finished ∧
          ∃ chunk, (attempt source keys maxTasks b).chunks[i]? = some chunk ∧
            Finished source chunk r := by
        intro i r hr
        have := h.staged.answered pool hpool i r ((hget i r).mp hr)
        rwa [h.chunks] at this
      refine ⟨fun i hi => ?_, fun hsound key hsettled => ?_⟩
      · rw [← hlength] at hi
        exact (hanswered i _ (List.getElem?_eq_getElem hi)).1
      · rw [merge_verdicts results (attempt source keys maxTasks b).chunks hlength]
        · simp only [hflat, Dict.mem_fromKeys]
          rfl
        · intro i r chunk hr hchunk
          obtain ⟨-, chunk', hchunk', times, b', rfl⟩ := hanswered i r hr
          rw [hchunk, Option.some.injEq] at hchunk'
          subst hchunk'
          exact BatchSource.finishBatch_sound
            (fun key hkey => hsound key (hmem (List.mem_of_getElem? hchunk) hkey))
            times b' hsettled
    · cases hreturned

/-- How many steps a run takes whose caller is not cancelled. -/
theorem Chunking.length_le (hmax : 1 ≤ maxTasks)
    (h : Chunking source (attempt source keys maxTasks b) es s)
    (hes : .pool .cancelCaller ∉ es) :
    es.length ≤ 7 * (attempt source keys maxTasks b).chunks.length + 3 := by
  obtain ⟨-, -, -, -, -, hmode⟩ := attempt_spec source keys maxTasks b
  have hstages : s.stages.size ≤ (attempt source keys maxTasks b).chunks.length := by
    have hsub : s.stages.keys.Subperm
        (List.range (attempt source keys maxTasks b).chunks.length) := by
      refine List.subperm_of_subset s.stages.nodup fun i hi => List.mem_range.mpr ?_
      obtain ⟨stage, hstage⟩ := Dict.mem_keys.mp hi
      rw [← h.chunks]
      exact h.staged.known i stage hstage
    have hle := hsub.length_le
    rw [List.length_range] at hle
    simpa [Dict.keys, Dict.size] using hle
  have hfetched : s.fetched.length ≤ (attempt source keys maxTasks b).chunks.length := by
    obtain ⟨hnodup, hrange, -⟩ := h.fetched
    have hle := (List.subperm_of_subset hnodup fun i hi =>
      List.mem_range.mpr (hrange i hi)).length_le
    rwa [List.length_range, List.length_map] at hle
  rcases hmode with ⟨hnone, -⟩ | hsome
  · obtain ⟨-, hlength⟩ := h.direct hnone
    split at hlength <;> omega
  · obtain ⟨pool, es', -, hrun, hlength, hcancel, -⟩ := h.pooled _ hsome
    have := (WorkerPool.ordered_map hmax hrun).finite fun hc => hes (hcancel hc)
    omega

/-- A chunk in somebody's hands can take its next step. -/
theorem chunk_proceeds {w i : ℕ} (hindex : s.indexOf w = some i) (hlt : i < s.chunks.length)
    (hopen : s.stages.get? i ≠ some .finished)
    (hdeliver : ∀ r, (s.deliver w i r).isSome = true) :
    ∃ e, e ≠ .pool .cancelCaller ∧ (s.step source e).isSome = true := by
  have hchunk := List.getElem?_eq_getElem hlt
  cases hstage : s.stages.get? i with
  | none =>
    refine ⟨.beforeCall w 0, nofun, ?_⟩
    simp only [step, hindex, hchunk, hstage]
    rfl
  | some stage =>
    cases stage with
    | finished => exact absurd hstage hopen
    | admitted active =>
      cases hempty : (BatchSource.activeKeys (Dict.fromKeys s.chunks[i]) active).isEmpty with
      | true =>
        refine ⟨.finish w ⟨0, 0, 0, 0⟩, nofun, ?_⟩
        simp only [step, hindex, hchunk, hstage, hempty, if_true]
        exact hdeliver _
      | false =>
        refine ⟨.fetchMany w, nofun, ?_⟩
        simp only [step, hindex, hchunk, hstage, hempty, Bool.false_eq_true, if_false]
        rfl
    | fetching active =>
      refine ⟨.finish w ⟨0, 0, 0, 0⟩, nofun, ?_⟩
      simp only [step, hindex, hchunk, hstage]
      exact hdeliver _

/-- A call whose caller is not cancelled has returned, or can go on. -/
theorem Chunking.proceeds (hmax : 1 ≤ maxTasks)
    (h : Chunking source (attempt source keys maxTasks b) es s)
    (hes : .pool .cancelCaller ∉ es) : s.returned.isSome = true ∨
      ∃ e, e ≠ .pool .cancelCaller ∧ (s.step source e).isSome = true := by
  obtain ⟨-, -, -, -, -, hmode⟩ := attempt_spec source keys maxTasks b
  rcases hmode with ⟨hnone, hchunks⟩ | hsome
  · obtain ⟨hpool, -⟩ := h.direct hnone
    cases hdirect : s.direct with
    | some r =>
      refine .inl ?_
      rw [returned, hpool, hdirect]
      rfl
    | none =>
      have hindex : s.indexOf 0 = some 0 := by
        rw [indexOf, hpool, hdirect]
        rfl
      refine .inr (chunk_proceeds hindex ?_ (fun hstage => ?_) fun r => ?_)
      · rw [h.chunks, hchunks]
        exact Nat.one_pos
      · have := (h.staged.finished 0 hstage).2 hpool
        rw [hdirect] at this
        cases this
      · rw [deliver, hpool]
        rfl
  · obtain ⟨pool, es', hpool, hrun, -, hcancel, hraises⟩ := h.pooled _ hsome
    have hmap := WorkerPool.ordered_map hmax hrun
    rcases hmap.proceeds with hended | ⟨w, i, hw, hreturns⟩ | ⟨e, hinternal, he⟩
    · cases hcaller : pool.caller with
      | returned results =>
        refine .inl ?_
        rw [returned, hpool]
        simp only [hcaller]
        rfl
      | raised error =>
        rcases (hmap.raised error hcaller).2 with ⟨w, l, hr⟩ | ⟨-, hc⟩
        · exact absurd (hraises w error l hr) hes
        · exact absurd (hcancel hc) hes
      | _ =>
        rw [hcaller] at hended
        cases hended
    · -- An index is with one worker or answered, so the chunk has not come back.
      have hindex : s.indexOf w = some i := by
        rw [indexOf, hpool]
        simp only [hw]
      have hplaced := (WorkerPool.dispatching_run hmax hrun).placed
      have hholds : 0 < pool.stations.countP (DispatchWorker.holds i) :=
        List.countP_pos_iff.mpr ⟨.operating i,
          List.mem_append_left _ (List.mem_of_getElem? hw), by simp [DispatchWorker.holds]⟩
      have hcount := hplaced.placed i
      have hlt : i < s.chunks.length := by
        have hordered := (WorkerPool.dispatching_run hmax hrun).ordered_eq
        have hnext := hplaced.next
        rw [hordered, ← h.chunks] at hnext
        split at hcount <;> omega
      refine .inr (chunk_proceeds hindex hlt (fun hstage => ?_) fun r => ?_)
      · obtain ⟨r, hr⟩ := (h.staged.finished i hstage).1 pool hpool
        have hpos := List.count_pos_iff.mpr (List.mem_map_of_mem (f := Prod.fst) hr)
        dsimp only at hpos
        split at hcount <;> omega
      · rw [deliver, hpool]
        simp only [Option.isSome_map]
        exact hreturns r.2
    · refine .inr ⟨.pool e, fun heq => ?_, ?_⟩
      · cases heq
        cases hinternal
      · have hpermits : permits pool e = true := by
          cases e <;> first | rfl | cases hinternal
        simp only [step, hpool, hpermits, if_true, Option.isSome_map]
        exact he

omit [KeyText K] in
theorem one_le_waveSize (maxConcurrency maxPendingTasks : ℕ) (sourceLimit : Option ℕ) :
    1 ≤ waveSize maxConcurrency maxPendingTasks sourceLimit :=
  Nat.le_max_left _ _

/-- `attempt` for a batch source whose breaker is disabled, in any order of the steps of its chunks
and under any limits: no call of `fetch_many` gets more keys than the source takes, no key is given
to two calls, and all are given to one when the call returns. What it returns for a key is what the
call without `max_batch_size` returns, when nothing is raised for the batch. A call whose caller is
not cancelled ends. -/
theorem chunked_batch_dispatch (hdisabled : source.circuit.enabled = false)
    {maxConcurrency maxPendingTasks : ℕ} {sourceLimit : Option ℕ}
    (hrun : Run (step source) (attempt source keys
      (waveSize maxConcurrency maxPendingTasks sourceLimit) b) es s) :
    (∀ size, source.maxBatchSize = some size → ∀ call ∈ s.fetched, call.2.length ≤ size) ∧
    ((s.fetched.map Prod.snd).flatten.Nodup ∧
      ∀ key ∈ (s.fetched.map Prod.snd).flatten, key ∈ keys) ∧
    (∀ result, s.returned = some result →
      (s.fetched.map Prod.snd).flatten.Perm (Dict.fromKeys keys) ∧
      ∀ es' b' s' whole, Run (step { source with maxBatchSize := none })
          (attempt { source with maxBatchSize := none } keys
            (waveSize maxConcurrency maxPendingTasks sourceLimit) b') es' s' →
        s'.returned = some whole → (∀ key ∈ keys, source.Sound key) →
        ∀ key, source.Settled key →
          (result.get? key).map BatchAnswer.content = (whole.get? key).map BatchAnswer.content ∧
          ((result.get? key).isSome = true ↔ key ∈ keys)) ∧
    (.pool .cancelCaller ∉ es →
      es.length ≤ 7 * (attempt source keys
        (waveSize maxConcurrency maxPendingTasks sourceLimit) b).chunks.length + 3 ∧
      (s.returned.isSome = true ∨
        ∃ e, e ≠ .pool .cancelCaller ∧ (s.step source e).isSome = true)) := by
  have hmax := one_le_waveSize maxConcurrency maxPendingTasks sourceLimit
  have h := chunking_run hdisabled hmax hrun
  obtain ⟨hflat, hsize, -⟩ := attempt_spec source keys
    (waveSize maxConcurrency maxPendingTasks sourceLimit) b
  refine ⟨fun size hsome call hcall => ?_, ?_, fun result hresult => ⟨?_, ?_⟩, fun hes =>
    ⟨h.length_le hmax hes, h.proceeds hmax hes⟩⟩
  · have hchunk := h.staged.calls call hcall
    rw [h.chunks] at hchunk
    exact hsize size hsome call.2 (List.mem_of_getElem? hchunk)
  · obtain ⟨asked, hperm, hsub⟩ := h.asked
    have hkeys : asked.flatten.Sublist (Dict.fromKeys keys) := by
      rw [← hflat]
      exact hsub.flatten
    refine ⟨hperm.flatten.nodup_iff.mpr (hkeys.nodup (Dict.nodup_fromKeys keys)),
      fun key hkey => ?_⟩
    exact Dict.mem_fromKeys.mp (hkeys.subset (hperm.flatten.subset hkey))
  · rw [← hflat]
    exact h.asked_all (returned_results hmax h hresult).1
  · intro es' b' s' whole hrun' hwhole hsound key hsettled
    have h' : Chunking { source with maxBatchSize := none } _ es' s' :=
      chunking_run hdisabled hmax hrun'
    have hchunked := (returned_results hmax h hresult).2 hsound key hsettled
    refine ⟨?_, ?_⟩
    · rw [hchunked]
      exact ((returned_results hmax h' hwhole).2 hsound key hsettled).symm
    · rw [← Option.isSome_map, hchunked]
      split <;> simp_all

/-! ## Two chunks of one key -/

/-- Prices in batches of one key. The copies, the clock and the freshness policy are given. -/
def prices (isolate : ℕ → Option ℕ) (inFuture : ℚ → ℕ → Bool)
    (fresh : ℚ → ℕ → ℕ → Except Raised Bool) : BatchSource ℕ ℕ where
  name := "rest"
  maxBatchSize := some 1
  circuit := { Executor.oneFailure with enabled := false }
  maxAttempts := 1
  fetch := fun key => if key = 3 then none else some (key * 10)
  isolate := isolate
  inFuture := inFuture
  fresh := fresh

/-- Both workers have a chunk, and the second one comes back first. -/
def bothWorkers : List (BatchEvent ℕ ℕ) :=
  [.pool (.begins 0), .pool (.begins 1), .beforeCall 1 0, .beforeCall 0 0, .fetchMany 1,
    .fetchMany 0, .finish 1 ⟨0, 0, 0, 1⟩, .finish 0 ⟨5, 5, 5, 2⟩, .pool (.wake false)]

/-- The caller's own call. -/
def oneCall : List (BatchEvent ℕ ℕ) :=
  [.beforeCall 0 0, .fetchMany 0, .finish 0 ⟨5, 5, 5, 1⟩]

/-- All copies are made, no payload is from the future and every one is fresh. -/
def plain : BatchSource ℕ ℕ := prices some (fun _ _ => false) fun _ _ _ => .ok true

theorem chunked_batch_dispatch_two : ∃ s s' result whole,
    exec (step plain) (attempt plain [1, 3, 1] (waveSize 4 4 (some 2)) .empty) bothWorkers =
      some s ∧
    exec (step { plain with maxBatchSize := none }) (attempt { plain with maxBatchSize := none }
      [1, 3, 1] (waveSize 4 4 (some 2)) .empty) oneCall = some s' ∧
    s.returned = some result ∧ s'.returned = some whole ∧
    (∀ call ∈ s.fetched, call.2.length ≤ 1) ∧
    (s.fetched.map Prod.snd).flatten.Perm (Dict.fromKeys [1, 3, 1]) ∧
    (result.get? 3).map BatchAnswer.content = (whole.get? 3).map BatchAnswer.content ∧
    bothWorkers.length ≤ 17 := by
  have hchunked : ((exec (step plain) (attempt plain [1, 3, 1] (waveSize 4 4 (some 2)) .empty)
      bothWorkers).bind returned).isSome = true := by decide +kernel
  have hwhole : ((exec (step { plain with maxBatchSize := none })
      (attempt { plain with maxBatchSize := none } [1, 3, 1] (waveSize 4 4 (some 2)) .empty)
      oneCall).bind returned).isSome = true := by decide +kernel
  obtain ⟨result, hresult⟩ := Option.isSome_iff_exists.mp hchunked
  obtain ⟨s, hs, hreturned⟩ := Option.bind_eq_some_iff.mp hresult
  obtain ⟨whole, hwhole⟩ := Option.isSome_iff_exists.mp hwhole
  obtain ⟨s', hs', hreturned'⟩ := Option.bind_eq_some_iff.mp hwhole
  have hdisabled : plain.circuit.enabled = false := rfl
  obtain ⟨hsize, -, hresults, hends⟩ := chunked_batch_dispatch hdisabled (exec_run hs)
  obtain ⟨hperm, hsame⟩ := hresults result hreturned
  refine ⟨s, s', result, whole, hs, hs', hreturned, hreturned', hsize 1 rfl, hperm, ?_, ?_⟩
  · refine (hsame oneCall .empty s' whole (exec_run hs') hreturned' (fun key _ payload _ => ?_) 3
      fun _ _ _ _ => rfl).1
    exact ⟨payload, rfl, fun _ => ⟨true, rfl⟩⟩
  · exact (hends (by simp [bothWorkers])).1

/-- The answer for the second of two keys, where the call has returned. -/
def secondKey (source : BatchSource ℕ ℕ) (es : List (BatchEvent ℕ ℕ)) :
    Option (Except AttemptError ℕ × ℕ) :=
  (exec (step source) (attempt source [1, 2] 2 .empty) es).bind fun s =>
    s.returned.bind fun result => (result.get? 2).map BatchAnswer.content

/-- The first payload cannot be copied. -/
def uncopied : BatchSource ℕ ℕ :=
  prices (fun payload => if payload = 10 then none else some payload) (fun _ _ => false)
    fun _ _ _ => .ok true

/-- The freshness policy of the first key raises. -/
def undecided : BatchSource ℕ ℕ :=
  prices some (fun _ _ => false) fun _ key _ => if key = 1 then .error (.other false) else .ok true

/-- The second payload is from the future until the clock shows five. -/
def early : BatchSource ℕ ℕ :=
  prices some (fun now payload => decide (payload = 20 ∧ now < 5)) fun _ _ _ => .ok true

/-- A batch fails as a whole when one of its payloads cannot be copied or judged, and a timestamp is
compared with the time at which its own chunk has come back. -/
theorem whole_batch_fails_counterexample :
    secondKey uncopied bothWorkers = some (.ok 20, 1) ∧
    secondKey { uncopied with maxBatchSize := none } oneCall =
      some (.error (.raised (.other false)), 1) ∧
    secondKey undecided bothWorkers = some (.ok 20, 1) ∧
    secondKey { undecided with maxBatchSize := none } oneCall =
      some (.error (.raised (.other false)), 1) ∧
    secondKey early bothWorkers = some (.error .future, 1) ∧
    secondKey { early with maxBatchSize := none } oneCall = some (.ok 20, 1) := by
  refine ⟨?_, ?_, ?_, ?_, ?_, ?_⟩ <;> decide +kernel

end
end BatchDispatch
end
end Coalestra
