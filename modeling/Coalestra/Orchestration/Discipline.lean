import Coalestra.Orchestration.Stores

/-! # What frames hold

A `Discipline` says what is promised of every value, error and key that a frame may hold, slot by
slot. `Rules` lists what the promises owe each other: one field for each way in which the code moves
data from one slot to another. Once the rules hold for a step, every frame keeps its promises across
it (`Stepped.keeps`), so a property of all values or of all errors is a discipline and its rules. -/

namespace Coalestra
set_option autoImplicit false
set_option maxHeartbeats 250000

section
variable {K V : Type} [DecidableEq K]

/-- What the slots of a frame owe to its caller: the deadline and the runtime. -/
abbrev Origin := Option ℚ × ℕ

def Scope.origin (c : Scope K) : Origin := (c.deadline, c.runtime)

/-- The promises, by slot. `covers` tells which frames make them; `asked` and `acquired` are about
keys below a path of derived keys. -/
structure Discipline (K V : Type) where
  covers : ℕ → Origin → Prop
  covers_mono : ∀ i j o, i < j → covers i o → covers j o
  asked : Origin → List K → K → Prop
  acquired : Origin → List K → K → Prop
  clock : ℚ → Prop
  lookup : Origin → K → CacheLookup K V → Prop
  candidate : Origin → K → SnapshotValue K V → Prop
  copy : Origin → K → SnapshotValue K V → Prop
  served : Origin → K → SnapshotValue K V → Prop
  value : Origin → K → SnapshotValue K V → Prop
  best : Origin → K → SnapshotValue K V → Prop
  winner : Origin → K → SnapshotValue K V → Prop
  error : Origin → K → Error K → Prop
  raised : Origin → Error K → Prop
  failure : Origin → K → SourceFailure → Prop
  attempt : Origin → Source K → K → SourceAttempt K V → Prop
  derivable : Origin → Source K → List K → Prop
  dependencies : Origin → Source K → List K → Dict K ℕ → Prop
  shares : Origin → Origin → Prop

namespace Discipline
variable (D : Discipline K V)

def result (o : Origin) (key : K) : ResolutionResult K V → Prop
  | .ok v => D.value o key v
  | .error e => D.error o key e

def settlement (o : Origin) (key : K) : Except (Error K) (ResolutionResult K V) → Prop
  | .ok r => D.result o key r
  | .error e => D.raised o e

def outcome (o : Origin) : Except (Error K) (Dict K (ResolutionResult K V)) → Prop
  | .ok resolved => ∀ k r, resolved.get? k = some r → D.result o k r
  | .error e => D.raised o e

/-- Flight `q` keeps promises that the joiner can use. -/
def joinable (q : ℕ) (o' o : Origin) : Prop := D.covers q o' ∧ D.shares o' o

/-! ## Bodies -/

structure ManyHolds (c : Scope K) (keys : List K) (l : ManyLocals K V) : Prop where
  keys : ∀ k ∈ keys, D.asked c.origin c.ancestry k
  values : ∀ k v, l.values.get? k = some v → D.served c.origin k v
  errors : ∀ k e, l.errors.get? k = some e → D.error c.origin k e
  candidates : ∀ k v, l.staleCandidates.get? k = some v → D.candidate c.origin k v
  pending : ∀ k ∈ l.pending, D.acquired c.origin c.ancestry k
  results : ∀ k r, l.results.get? k = some r → D.result c.origin k r

def LookupsHold (c : Scope K) (lookups : List (K × CacheLookup K V)) : Prop :=
  ∀ e ∈ lookups, D.acquired c.origin c.ancestry e.1 ∧ D.lookup c.origin e.1 e.2

def ManyPoint (called : ℕ → Scope K → Call K → Prop) (c : Scope K) : ManyPhase K V → Prop
  | .start => True
  | .reading cacheKeys now => D.clock now ∧ ∀ k ∈ cacheKeys, D.acquired c.origin c.ancestry k
  | .isolating lookups | .serving lookups => D.LookupsHold c lookups
  | .copying key copy rest =>
    D.acquired c.origin c.ancestry key ∧ D.copy c.origin key copy ∧ D.LookupsHold c rest
  | .resolving _ shared | .reserving shared => ∀ k ∈ shared, D.acquired c.origin c.ancestry k
  | .joining futures => ∀ e ∈ futures, D.acquired c.origin c.ancestry e.1 ∧
      ∀ cp owned, called e.2 cp (.produce owned) → D.joinable e.2 cp.origin c.origin
  | .collecting rest => ∀ k ∈ rest, D.acquired c.origin c.ancestry k
  | .fallback key copy rest => D.acquired c.origin c.ancestry key ∧ D.copy c.origin key copy ∧
      ∀ k ∈ rest, D.acquired c.origin c.ancestry k
  | .done => True
  | .raised e => D.raised c.origin e

structure OwnedHolds (c : Scope K) (keys : List K) (l : OwnedLocals K V) : Prop where
  keys : ∀ k ∈ keys, D.acquired c.origin c.ancestry k
  failures : ∀ k fs, l.failures.get? k = some fs → ∀ f ∈ fs, D.failure c.origin k f
  best : ∀ k v, l.bestStale.get? k = some v → D.best c.origin k v ∧ v.key = k
  resolved : ∀ k r, l.resolved.get? k = some r → D.result c.origin k r

/-- Values on their way into the cache. -/
def WritesHold (c : Scope K) (values : List (SnapshotValue K V)) : Prop :=
  ∀ v ∈ values, D.acquired c.origin c.ancestry v.key ∧ D.value c.origin v.key v

def WinnersHold (c : Scope K) (winners : List (K × SnapshotValue K V)) : Prop :=
  ∀ e ∈ winners, D.acquired c.origin c.ancestry e.1 ∧ D.winner c.origin e.1 e.2

def OwnedPoint (c : Scope K) : OwnedPhase K V → Prop
  | .visiting _ | .attempting _ _ _ _ _ | .staleWritten | .done => True
  | .harvesting source _ attempts rest fresh =>
    (∀ e ∈ attempts, D.attempt c.origin source e.1 e.2) ∧
      (∀ k ∈ rest, D.acquired c.origin c.ancestry k) ∧ D.WritesHold c fresh
  | .writing _ fresh => D.WritesHold c fresh
  | .written _ winners | .superseding _ winners => D.WinnersHold c winners
  | .copyingWinner _ key copy rest => D.acquired c.origin c.ancestry key ∧
      D.copy c.origin key copy ∧ D.WinnersHold c rest
  | .finishing rest stales =>
    (∀ k ∈ rest, D.acquired c.origin c.ancestry k) ∧ D.WritesHold c stales
  | .staleWriting stales => D.WritesHold c stales
  | .raised e => D.raised c.origin e

def WorkPoint (c : Scope K) (source : Source K) (keys : List K) : WorkPhase K V → Prop
  | .start | .resolving _ => True
  | .isolating values => D.derivable c.origin source keys ∧
      ∀ k v, values.get? k = some v → D.served c.origin k v
  | .calling versions => D.dependencies c.origin source keys versions
  | .done attempts => ∀ e ∈ attempts, D.attempt c.origin source e.1 e.2

def ProducePoint (c : Scope K) : ProducePhase K V → Prop
  | .completing _ outcome => D.outcome c.origin outcome
  | _ => True

def Holds (called : ℕ → Scope K → Call K → Prop) (c : Scope K) : Body K V → Prop
  | .resolveMany keys l p => D.ManyHolds c keys l ∧ D.ManyPoint called c p
  | .resolveOwned keys l p => D.OwnedHolds c keys l ∧ D.OwnedPoint c p
  | .work source keys p => (∀ k ∈ keys, D.acquired c.origin c.ancestry k) ∧
      D.WorkPoint c source keys p
  | .produce owned settled p => (∀ k ∈ owned, D.acquired c.origin c.ancestry k) ∧
      (∀ k r, settled.get? k = some r → D.settlement c.origin k r) ∧ D.ProducePoint c p
  | .refresh key p => D.acquired c.origin c.ancestry key ∧
      match p with
      | .joining futures => ∀ e ∈ futures, ∀ cp owned, called e.2 cp (.produce owned) →
          D.joinable e.2 cp.origin c.origin
      | _ => True

end Discipline

/-- Every covered frame keeps its promises. -/
def State.Keeps (s : State K V) (D : Discipline K V) : Prop :=
  ∀ i f, s.frame? i = some f → D.covers i f.scope.origin → D.Holds s.Called f.scope f.body

/-! ## Rules -/

/-- What the slots owe each other when a frame with this scope and body moves on event `e`. -/
structure Rules (b : Builder K V) (s : State K V) (c : Scope K) (body : Body K V) (e : Event K V)
    (D : Discipline K V) : Prop where
  clock : D.clock s.now
  refreshed : ∀ k, D.acquired c.origin c.ancestry k → D.acquired (none, s.runtimes.length) [] k
  missing : ∀ k, D.asked c.origin c.ancestry k → (s.runtime c.runtime).pinned k = none →
    D.acquired c.origin c.ancestry k
  pinned : ∀ k v, D.asked c.origin c.ancestry k → (s.runtime c.runtime).pinned k = some v →
    D.served c.origin k v
  revisited : ∀ k v, D.acquired c.origin c.ancestry k → (s.runtime c.runtime).pinned k = some v →
    D.value c.origin k v
  read : ∀ now k lookup, D.clock now → D.acquired c.origin c.ancestry k →
    AsyncMemoryCache.LookupOf s.cache now (b.policyFor k) k lookup → D.lookup c.origin k lookup
  isolated : ∀ k lookup, D.lookup c.origin k lookup →
    D.lookup c.origin k (isolatedLookup b.copier lookup)
  hit : ∀ k lookup v stale, D.lookup c.origin k lookup → lookup.value = some v →
    (stale = false ∧ lookup.fresh = true ∨ stale = true ∧ lookup.fresh = false ∧
      lookup.usableStale = true ∧ (b.policyFor k).refreshMode = .staleWhileRevalidate) →
    D.copy c.origin k (b.cachedCopy s.now stale v)
  kept : ∀ k lookup v, D.lookup c.origin k lookup → lookup.value = some v →
    lookup.fresh = false → lookup.usableStale = true → D.candidate c.origin k v
  fallback : ∀ k v e, D.candidate c.origin k v → D.error c.origin k e →
    D.copy c.origin k (b.cachedCopy s.now true v)
  installed : ∀ k v, body.installing = some (k, v) → D.copy c.origin k v → D.value c.origin k v
  serve : ∀ keys l p k v, body = .resolveMany keys l p → e = .go → Installs b s body k v →
    D.value c.origin k v → D.served c.origin k v
  joins : ∀ k q cp owned, k ∈ body.reserving → s.tasks.get? k = some q →
    s.Called q cp (.produce owned) → D.joinable q cp.origin c.origin
  shares_self : D.shares c.origin c.origin
  joinValue : ∀ o path k v, D.shares o c.origin → D.acquired o path k → D.value o k v →
    D.value c.origin k v
  joinError : ∀ o path k e, D.shares o c.origin → D.acquired o path k → D.error o k e →
    D.error c.origin k e
  joinRaised : ∀ o e, D.shares o c.origin → D.raised o e → D.raised c.origin e
  unsupported : ∀ source k (fault : Fault), source ∈ b.sources → D.acquired c.origin c.ancestry k →
    source.supports k = .error fault →
    D.failure c.origin k ((fault.error : Error K).sourceFailure source.name)
  direct : ∀ source keys, source ∈ b.sources → source.kind ≠ .derived →
    (∀ k ∈ keys, source.supports k = .ok true ∧ D.acquired c.origin c.ancestry k) →
    D.dependencies c.origin source keys .empty
  undeclared : ∀ source k (fault : Fault), source ∈ b.sources → source.supports k = .ok true →
    source.dependencies k = .error fault → D.attempt c.origin source k (.failed fault.error)
  cyclic : ∀ source k declared cycle, source ∈ b.sources → source.kind = .derived →
    source.supports k = .ok true → source.dependencies k = .ok declared →
    D.acquired c.origin c.ancestry k →
    Builder.cycleIn (c.ancestry ++ [k]) (Dict.fromKeys declared) = some cycle →
    D.attempt c.origin source k (.failed (.dependencyCycle cycle))
  depends : ∀ source k declared d, source ∈ b.sources → source.kind = .derived →
    source.supports k = .ok true → source.dependencies k = .ok declared → d ∈ declared →
    Builder.cycleIn (c.ancestry ++ [k]) (Dict.fromKeys declared) = none →
    D.acquired c.origin c.ancestry k → D.asked c.origin (c.ancestry ++ [k]) d
  derives : ∀ source k declared, source ∈ b.sources → source.kind = .derived →
    source.supports k = .ok true → source.dependencies k = .ok declared →
    (∀ d ∈ declared, ∃ v, D.served c.origin d v) → D.derivable c.origin source [k]
  unresolved : ∀ source k errors,
    D.attempt c.origin source k (.failed (.dependencyResolution k source.name errors))
  childRaised : ∀ source k e, D.raised c.origin e → D.attempt c.origin source k (.failed e)
  versions : ∀ source keys (values : Dict K (SnapshotValue K V)), D.derivable c.origin source keys →
    (∀ k v, values.get? k = some v → D.served c.origin k v) →
    D.dependencies c.origin source keys
      (.comprehend values.keys fun k => (values.get? k).map SnapshotValue.version)
  answered : ∀ source keys versions payload k, D.dependencies c.origin source keys versions →
    k ∈ keys → D.attempt c.origin source k (b.attemptOf s.now versions payload)
  answeredBatch : ∀ source keys versions payload k, D.dependencies c.origin source keys versions →
    k ∈ keys → (∃ size, source.kind = .batch size) →
    D.attempt c.origin source k (b.attemptOf s.now .empty payload)
  omitted : ∀ source k typeName,
    typeName = "SourceUnavailableError" ∨ typeName = "SourceProtocolError" →
    D.attempt c.origin source k (.failed (.other typeName))
  failed : ∀ source keys versions (fault : Fault) k, body = .work source keys (.calling versions) →
    e = .raise fault → k ∈ keys → D.attempt c.origin source k (.failed fault.error)
  interrupted : ∀ fault : Fault, c.admits fault = true → D.raised c.origin fault.error
  refused : ∀ source k a f, D.attempt c.origin source k a →
    b.harvest s.now s.revisions.length source k a = .refused f → D.failure c.origin k f
  stale : ∀ source k a v versions, D.attempt c.origin source k a →
    b.harvest s.now s.revisions.length source k a = .stale v versions →
    D.failure c.origin k ⟨source.name, "StaleSourceData"⟩ ∧
      ((v.ageSeconds : WithTop ℚ) ≤ (b.policyFor k).maxStaleSeconds → D.best c.origin k v)
  fresh : ∀ keys lo source sources attempts k rest accepted a v versions,
    body = .resolveOwned keys lo (.harvesting source sources attempts (k :: rest) accepted) →
    Dict.find attempts k = some a → D.attempt c.origin source k a →
    b.harvest s.now s.revisions.length source k a = .fresh v versions → D.value c.origin k v
  superseded : ∀ fresh e, D.WritesHold c fresh →
    e ∈ superseded b fresh (b.setMany s.cache fresh).1 → D.winner c.origin e.1 e.2
  supersedes : ∀ keys lo sources k w rest,
    body = .resolveOwned keys lo (.superseding sources ((k, w) :: rest)) →
    D.acquired c.origin c.ancestry k → D.winner c.origin k w →
    D.copy c.origin k (b.cachedCopy s.now false w)
  bestStale : ∀ keys lo k v rest stales,
    body = .resolveOwned keys lo (.finishing (k :: rest) stales) →
    lo.bestStale.get? k = some v → D.best c.origin k v → D.value c.origin k v
  exhausted : ∀ k fs, (∀ f ∈ fs, D.failure c.origin k f) →
    D.error c.origin k (.resourceResolution k fs)
  omittedKey : ∀ typeName, typeName = "KeyError" ∨ typeName = "RuntimeError" →
    D.raised c.origin (.other typeName)

/-! ## One move -/

/-- Which keys and values a write result refers to. -/
theorem mem_superseded {b : Builder K V} {written : List (SnapshotValue K V)}
    {results : List (K × AsyncMemoryCache.CapturedWriteResult K V)} {e : K × SnapshotValue K V}
    (h : e ∈ superseded b written results) : ∃ v ∈ written, e.1 = v.key ∧ ∃ r,
      Dict.find results v.key = some r ∧ r.status = .ignoredLowerAuthority ∧
        e.2 = r.value.clone b.copier := by
  obtain ⟨v, hv, h⟩ := List.mem_filterMap.mp h
  split at h
  · rename_i value previous hfind
    rw [Option.some.injEq] at h
    subst h
    exact ⟨v, hv, rfl, _, hfind, rfl, rfl⟩
  · cases h

omit [DecidableEq K] in
/-- What a harvested value is. -/
theorem harvest_value {b : Builder K V} {now : ℚ} {version : ℕ} {source : Source K} {key : K}
    {a : SourceAttempt K V} {v : SnapshotValue K V} {versions : Dict K ℕ}
    (h : b.harvest now version source key a = .fresh v versions ∨
      b.harvest now version source key a = .stale v versions) :
    ∃ payload, a = .succeeded payload versions ∧
      v = b.snapshotValue now version key source payload versions := by
  cases a with
  | failed err => rcases h with h | h <;> cases h
  | succeeded payload deps =>
    unfold Builder.harvest at h
    dsimp only at h
    split at h
    · split at h <;> rcases h with h | h <;> cases h <;> exact ⟨payload, rfl, rfl⟩
    · rcases h with h | h <;> cases h

omit [DecidableEq K] in
theorem harvest_fresh {b : Builder K V} {now : ℚ} {version : ℕ} {source : Source K} {key : K}
    {a : SourceAttempt K V} {v : SnapshotValue K V} {versions : Dict K ℕ}
    (h : b.harvest now version source key a = .fresh v versions) : v.stale = false := by
  cases a with
  | failed err => cases h
  | succeeded payload deps =>
    unfold Builder.harvest at h
    dsimp only at h
    split at h
    · split at h
      · cases h
      · rename_i hstale
        cases h
        simpa using hstale
    · cases h

theorem ownedOutcome_ok {s : State K V} {i : ℕ} {resolved : Dict K (ResolutionResult K V)}
    (h : s.ownedOutcome i = some (.ok resolved)) : ∃ c keys l,
      s.frame? i = some ⟨c, .resolveOwned keys l .done⟩ ∧ l.resolved = resolved := by
  unfold State.ownedOutcome at h
  split at h <;> cases h
  exact ⟨_, _, _, ‹_›, rfl⟩

theorem ownedOutcome_error {s : State K V} {i : ℕ} {err : Error K}
    (h : s.ownedOutcome i = some (.error err)) : ∃ c keys l,
      s.frame? i = some ⟨c, .resolveOwned keys l (.raised err)⟩ := by
  unfold State.ownedOutcome at h
  split at h <;> cases h
  exact ⟨_, _, _, ‹_›⟩

theorem manyOutcome_ok {s : State K V} {i : ℕ} {values : Dict K (SnapshotValue K V)}
    {errors : Dict K (Error K)} (h : s.manyOutcome i = some (.ok (values, errors))) : ∃ c keys l,
      s.frame? i = some ⟨c, .resolveMany keys l .done⟩ ∧ l.values = values ∧ l.errors = errors := by
  unfold State.manyOutcome at h
  split at h <;> cases h
  exact ⟨_, _, _, ‹_›, rfl, rfl⟩

theorem manyOutcome_error {s : State K V} {i : ℕ} {err : Error K}
    (h : s.manyOutcome i = some (.error err)) : ∃ c keys l,
      s.frame? i = some ⟨c, .resolveMany keys l (.raised err)⟩ := by
  unfold State.manyOutcome at h
  split at h <;> cases h
  exact ⟨_, _, _, ‹_›⟩

theorem workOutcome_some {s : State K V} {i : ℕ} {attempts : List (K × SourceAttempt K V)}
    (h : s.workOutcome i = some attempts) : ∃ c source keys,
      s.frame? i = some ⟨c, .work source keys (.done attempts)⟩ := by
  unfold State.workOutcome at h
  split at h <;> cases h
  exact ⟨_, _, _, ‹_›⟩

theorem future_some {s : State K V} {q : ℕ} {k : K} {r : Except (Error K) (ResolutionResult K V)}
    (h : s.future q k = some r) : ∃ c owned settled p,
      s.frame? q = some ⟨c, .produce owned settled p⟩ ∧ settled.get? k = some r := by
  unfold State.future at h
  split at h
  · exact ⟨_, _, _, _, ‹_›, h⟩
  · cases h

theorem joined_get? {s : State K V} {futures : List (K × ℕ)}
    {joined : Dict K (ResolutionResult K V)} {k : K} {r : ResolutionResult K V}
    (h : s.joined futures = some joined) (hr : joined.get? k = some r) :
    ∃ q, (k, q) ∈ futures ∧ s.future q k = some (.ok r) := by
  unfold State.joined at h
  split at h
  · rw [Option.some.injEq] at h
    subst h
    rw [Dict.get?_comprehend] at hr
    split at hr
    · obtain ⟨x, hx, hr⟩ := Option.bind_eq_some_iff.mp hr
      obtain ⟨q, hq, hx⟩ := Option.bind_eq_some_iff.mp hx
      refine ⟨q, Dict.mem_of_find hq, ?_⟩
      cases x with
      | error err => cases hr
      | ok r' =>
        cases hr
        exact hx
    · cases hr
  · cases h

theorem joinFailure_some {s : State K V} {futures : List (K × ℕ)} {k : K} {err : Error K}
    (h : s.joinFailure futures k = some err) :
    ∃ q, (k, q) ∈ futures ∧ s.future q k = some (.error err) := by
  unfold State.joinFailure at h
  split at h
  · rename_i e' hbind
    rw [Option.some.injEq] at h
    subst h
    obtain ⟨q, hq, hx⟩ := Option.bind_eq_some_iff.mp hbind
    exact ⟨q, Dict.mem_of_find hq, hx⟩
  · cases h

/-- A frame has one scope and one call. -/
theorem State.Called.unique {s : State K V} {i : ℕ} {c c' : Scope K} {call call' : Call K}
    (h : s.Called i c call) (h' : s.Called i c' call') : c = c' ∧ call = call' := by
  obtain ⟨f, hf, rfl, rfl⟩ := h
  obtain ⟨f', hf', rfl, rfl⟩ := h'
  rw [hf, Option.some.injEq] at hf'
  rw [hf']
  exact ⟨rfl, rfl⟩

variable {b : Builder K V} {s : State K V} {c : Scope K} {e : Event K V} {m : Step K V}
  {D : Discipline K V} {called : ℕ → Scope K → Call K → Prop}

/-- A joined result keeps its promise in the scope of the joiner. -/
theorem Rules.join {body : Body K V} (R : Rules b s c body e D) {o : Origin} {path : List K} {k : K}
    {r : ResolutionResult K V} (hs : D.shares o c.origin) (hk : D.acquired o path k)
    (hr : D.result o k r) : D.result c.origin k r := by
  cases r with
  | ok v => exact R.joinValue o path k v hs hk hr
  | error err => exact R.joinError o path k err hs hk hr

/-- What a settled future promises. -/
theorem State.Keeps.future (hs : s.Keeps D) {k : K} {q : ℕ} {o : Origin}
    {r : Except (Error K) (ResolutionResult K V)} (hq : FutureShape s.Called k q)
    (hjoin : ∀ cp owned, s.Called q cp (.produce owned) → D.joinable q cp.origin o)
    (h : s.future q k = some r) : ∃ cp : Scope K, D.shares cp.origin o ∧
      D.acquired cp.origin cp.ancestry k ∧ D.settlement cp.origin k r := by
  obtain ⟨cp, owned, settled, p, hf, hr⟩ := future_some h
  have hself : s.Called q cp (.produce owned) := ⟨_, hf, rfl, rfl⟩
  obtain ⟨hcovers, hshares⟩ := hjoin cp owned hself
  obtain ⟨hkeys, hsettled, _⟩ := hs q _ hf hcovers
  obtain ⟨cp', owned', hcalled, hmem, _⟩ := hq
  obtain ⟨rfl, hcall⟩ := hself.unique hcalled
  rw [Call.produce.injEq] at hcall
  exact ⟨cp, hshares, hkeys k (hcall ▸ hmem), hsettled k r hr⟩

/-- The futures a reservation hands out belong to producers that share with the joiner. -/
theorem Rules.reserve {body : Body K V} (R : Rules b s c body e D) {i : ℕ}
    (hi : D.covers i c.origin) (hlt : i < s.frames.length) {keys : List K}
    (hkeys : ∀ k ∈ keys, k ∈ body.reserving)
    (hback : ∀ q cp call, called q cp call → s.Called q cp call ∨
      q = s.frames.length ∧ ∃ g, (s.reserve c keys).2.2 = some g ∧ g.scope = cp) :
    ∀ x ∈ (s.reserve c keys).1, ∀ cp owned, called x.2 cp (.produce owned) →
      D.joinable x.2 cp.origin c.origin := by
  intro x hx cp owned hcalled
  obtain ⟨⟨hk, htask⟩, _⟩ := reserve_future hx
  rcases hback _ _ _ hcalled with hold | ⟨hx2, g, hg, rfl⟩
  · rcases htask with htask | ⟨_, hlen⟩
    · exact R.joins _ _ _ _ (hkeys _ hk) htask hold
    · exact absurd hold.lt (by omega)
  · obtain ⟨_, _, _, rfl⟩ := reserve_spawn_eq hg
    exact ⟨D.covers_mono _ _ _ (hx2 ▸ hlt) hi, R.shares_self⟩

theorem ManyMove.keeps {keys : List K} {l : ManyLocals K V} {p : ManyPhase K V}
    (hm : ManyMove b s c keys l p e m) (R : Rules b s c (.resolveMany keys l p) e D)
    (hs : s.Keeps D) {i : ℕ} (hi : D.covers i c.origin) (hlt : i < s.frames.length)
    (hshape : ManyShape s.Called i c keys l p)
    (hback : ∀ q cp call, called q cp call → s.Called q cp call ∨
      q = s.frames.length ∧ ∃ g, m.spawn = some g ∧ g.scope = cp)
    (h : D.Holds s.Called c (.resolveMany keys l p)) : D.Holds called c m.body := by
  obtain ⟨hl, hp⟩ := h
  cases hm with
  | start =>
    have hcache : ∀ k ∈ cacheKeysOf (s.runtime c.runtime) keys,
        D.acquired c.origin c.ancestry k := by
      intro k hk
      obtain ⟨hk, hn⟩ := List.mem_filter.mp hk
      refine R.missing k (hl.keys k hk) ?_
      simp only [Bool.and_eq_true, Bool.not_eq_true', Option.isNone_iff_eq_none] at hn
      rw [ResolutionRuntime.pinned, hn.2]
      simp
    refine ⟨⟨hl.keys, ?_, hl.errors, hl.candidates, ?_, hl.results⟩, ?_⟩
    · intro k v hv
      rw [Dict.get?_comprehend] at hv
      split at hv
      · exact R.pinned k v (hl.keys k ‹_›) hv
      · cases hv
    · intro k hk
      obtain ⟨hk, hr⟩ := List.mem_filter.mp hk
      refine R.missing k (hl.keys k hk) ?_
      rw [ResolutionRuntime.pinned, if_pos hr]
    · show D.ManyPoint called c (if _ then _ else _)
      split
      · intro x hx
        cases hx
      · exact ⟨R.clock, hcache⟩
  | @read cacheKeys now =>
    refine ⟨hl, ?_⟩
    intro x hx
    have hk : x.1 ∈ cacheKeys := by
      have hmem := List.mem_map_of_mem (f := Prod.fst) hx
      rw [AsyncMemoryCache.getMany, AsyncMemoryCache.getManyLocked_keys, Dict.mem_fromKeys] at hmem
      exact hmem
    exact ⟨hp.2 _ hk, R.read now x.1 x.2 hp.1 (hp.2 _ hk)
      (AsyncMemoryCache.getManyLocked_lookup now b.policyFor _ _ hx)⟩
  | isolate =>
    refine ⟨hl, ?_⟩
    intro x hx
    obtain ⟨y, hy, rfl⟩ := List.mem_map.mp hx
    exact ⟨(hp y hy).1, R.isolated _ _ (hp y hy).2⟩
  | served => exact ⟨hl, trivial⟩
  | share => exact ⟨hl, fun k hk => hl.pending k (List.mem_of_mem_filter hk)⟩
  | delegate => exact ⟨hl, fun k hk => hl.pending k (List.mem_of_mem_filter hk)⟩
  | hit hv hst =>
    have hhead := hp _ List.mem_cons_self
    exact ⟨hl, hhead.1, R.hit _ _ _ _ hhead.2 hv hst, fun x hx => hp x (List.mem_cons_of_mem _ hx)⟩
  | miss =>
    refine ⟨⟨hl.keys, hl.values, hl.errors, hl.candidates, ?_, hl.results⟩,
      fun x hx => hp x (List.mem_cons_of_mem _ hx)⟩
    intro k hk
    rcases List.mem_append.mp hk with hk | hk
    · exact hl.pending k hk
    · rw [List.mem_singleton] at hk
      rw [hk]
      exact (hp _ List.mem_cons_self).1
  | missStale hv hf hu =>
    refine ⟨⟨hl.keys, hl.values, hl.errors, ?_, ?_, hl.results⟩,
      fun x hx => hp x (List.mem_cons_of_mem _ hx)⟩
    · intro k v hk
      rw [Dict.get?_set] at hk
      split at hk
      · rename_i he
        cases hk
        rw [he]
        exact R.kept _ _ _ (hp _ List.mem_cons_self).2 hv hf hu
      · exact hl.candidates k v hk
    · intro k hk
      rcases List.mem_append.mp hk with hk | hk
      · exact hl.pending k hk
      · rw [List.mem_singleton] at hk
        rw [hk]
        exact (hp _ List.mem_cons_self).1
  | install =>
    refine ⟨⟨hl.keys, ?_, hl.errors, hl.candidates, hl.pending, hl.results⟩, hp.2.2⟩
    intro k v hk
    rw [Dict.get?_set] at hk
    split at hk
    · rename_i he
      cases hk
      rw [he]
      exact R.serve _ _ _ _ _ rfl rfl (.copied rfl) (R.installed _ _ rfl hp.2.1)
    · exact hl.values k v hk
  | @delegated child shared resolved ho =>
    obtain ⟨c', keys', l', hf, rfl⟩ := ownedOutcome_ok ho
    obtain ⟨_, hchild, ⟨owned, hcalled⟩, _⟩ := hshape
    have hself : s.Called child c' (.owned keys') := ⟨_, hf, rfl, rfl⟩
    have hc' := (hself.unique hcalled).1
    have hcov : D.covers child c'.origin := by
      rw [hc']
      exact D.covers_mono _ _ _ hchild hi
    have hres := (hs child _ hf hcov).1.resolved
    refine ⟨⟨hl.keys, hl.values, hl.errors, hl.candidates, hl.pending, ?_⟩, ?_⟩
    · intro k r hr
      rw [Dict.get?_update] at hr
      cases hk : l'.resolved.get? k with
      | some r' =>
        rw [hk, Option.some_or, Option.some.injEq] at hr
        subst hr
        have hres' := hres k r' hk
        rw [hc'] at hres'
        exact hres'
      | none =>
        rw [hk, Option.none_or] at hr
        exact hl.results k r hr
    · show D.ManyPoint called c (if _ then _ else _)
      split
      · exact hl.pending
      · exact hp
  | @delegateRaised child shared err ho =>
    obtain ⟨c', keys', l', hf⟩ := ownedOutcome_error ho
    obtain ⟨_, hchild, ⟨owned, hcalled⟩, _⟩ := hshape
    have hself : s.Called child c' (.owned keys') := ⟨_, hf, rfl, rfl⟩
    have hc' := (hself.unique hcalled).1
    have hcov : D.covers child c'.origin := by
      rw [hc']
      exact D.covers_mono _ _ _ hchild hi
    have hraised : D.raised c'.origin err := (hs child _ hf hcov).2
    rw [hc'] at hraised
    exact ⟨hl, hraised⟩
  | reserve =>
    refine ⟨hl, fun x hx => ⟨hp _ (reserve_future hx).1.1, ?_⟩⟩
    exact R.reserve hi hlt (fun k hk => hk) hback x hx
  | @joined futures joined hj =>
    refine ⟨⟨hl.keys, hl.values, hl.errors, hl.candidates, hl.pending, ?_⟩, hl.pending⟩
    intro k r hr
    rw [Dict.get?_update] at hr
    cases hk : joined.get? k with
    | some r' =>
      rw [hk, Option.some_or, Option.some.injEq] at hr
      subst hr
      obtain ⟨q, hmem, hfut⟩ := joined_get? hj hk
      obtain ⟨cp, hshares, hacq, hset⟩ := hs.future (hshape.2.1 _ hmem).1 (hp _ hmem).2 hfut
      exact R.join hshares hacq hset
    | none =>
      rw [hk, Option.none_or] at hr
      exact hl.results k r hr
  | @joinRaised futures key err hj =>
    obtain ⟨q, hmem, hfut⟩ := joinFailure_some hj
    obtain ⟨cp, hshares, _, hset⟩ := hs.future (hshape.2.1 _ hmem).1 (hp _ hmem).2 hfut
    exact ⟨hl, R.joinRaised _ _ hshares hset⟩
  | collected => exact ⟨hl, trivial⟩
  | collectMissing => exact ⟨hl, R.omittedKey _ (.inl rfl)⟩
  | collectValue hr =>
    refine ⟨⟨hl.keys, ?_, hl.errors, hl.candidates, hl.pending, hl.results⟩,
      fun k hk => hp k (List.mem_cons_of_mem _ hk)⟩
    intro k v hk
    rw [Dict.get?_set] at hk
    split at hk
    · rename_i he
      cases hk
      rw [he]
      exact R.serve _ _ _ _ _ rfl rfl (.collected hr) (hl.results _ _ hr)
    · exact hl.values k v hk
  | collectError hr =>
    refine ⟨⟨hl.keys, hl.values, ?_, hl.candidates, hl.pending, hl.results⟩,
      fun k hk => hp k (List.mem_cons_of_mem _ hk)⟩
    intro k err hk
    rw [Dict.get?_set] at hk
    split at hk
    · rename_i he
      cases hk
      rw [he]
      exact hl.results _ _ hr
    · exact hl.errors k err hk
  | collectStale hr hc =>
    exact ⟨hl, hp _ List.mem_cons_self,
      R.fallback _ _ _ (hl.candidates _ _ hc) (hl.results _ _ hr),
      fun k hk => hp k (List.mem_cons_of_mem _ hk)⟩
  | fallBack =>
    refine ⟨⟨hl.keys, ?_, hl.errors, hl.candidates, hl.pending, hl.results⟩, hp.2.2⟩
    intro k v hk
    rw [Dict.get?_set] at hk
    split at hk
    · rename_i he
      cases hk
      rw [he]
      exact R.serve _ _ _ _ _ rfl rfl (.copied rfl) (R.installed _ _ rfl hp.2.1)
    · exact hl.values k v hk
  | interrupt _ ha => exact ⟨hl, R.interrupted _ ha⟩

/-! ## Owned keys -/

theorem Discipline.OwnedHolds.fail {keys : List K} {l : OwnedLocals K V}
    (h : D.OwnedHolds c keys l) {key : K} {failure : SourceFailure}
    (hf : D.failure c.origin key failure) : D.OwnedHolds c keys (l.fail key failure) := by
  refine ⟨h.keys, ?_, h.best, h.resolved⟩
  intro k fs hk f hmem
  change ((l.failures.set key _).get? k) = some fs at hk
  rw [Dict.get?_set] at hk
  split at hk
  · rename_i he
    cases hk
    rw [he]
    rcases List.mem_append.mp hmem with hmem | hmem
    · cases hg : l.failures.get? key with
      | none => rw [hg] at hmem; cases hmem
      | some gs =>
        rw [hg] at hmem
        exact h.failures key gs hg f hmem
    · rw [List.mem_singleton] at hmem
      rw [hmem]
      exact hf
  · exact h.failures k fs hk f hmem

theorem Discipline.OwnedHolds.resolve {keys : List K} {l : OwnedLocals K V}
    (h : D.OwnedHolds c keys l) {key : K} {r : ResolutionResult K V} (hr : D.result c.origin key r) :
    D.OwnedHolds c keys { l with resolved := l.resolved.set key r } := by
  refine ⟨h.keys, h.failures, h.best, ?_⟩
  intro k r' hk
  rw [Dict.get?_set] at hk
  split at hk
  · rename_i he
    cases hk
    rw [he]
    exact hr
  · exact h.resolved k r' hk

theorem Discipline.OwnedHolds.settle {keys : List K} {l : OwnedLocals K V}
    (h : D.OwnedHolds c keys l) : D.OwnedHolds c keys l.settle :=
  ⟨h.keys, h.failures, h.best, h.resolved⟩

theorem Rules.visit {body : Body K V} (R : Rules b s c body e D) {keys : List K}
    {l : OwnedLocals K V} (hu : ∀ k ∈ l.unresolved, k ∈ keys) (h : D.OwnedHolds c keys l) :
    D.OwnedHolds c keys (Builder.visit (s.runtime c.runtime) l) := by
  refine ⟨h.keys, h.failures, h.best, ?_⟩
  intro k r hr
  unfold Builder.visit at hr
  dsimp only at hr
  rw [Dict.get?_update, Dict.get?_comprehend] at hr
  by_cases hk : k ∈ l.unresolved
  · rw [if_pos hk] at hr
    cases hp : (s.runtime c.runtime).pinned k with
    | none =>
      rw [hp, Option.map_none, Option.none_or] at hr
      exact h.resolved k r hr
    | some v =>
      rw [hp, Option.map_some, Option.some_or, Option.some.injEq] at hr
      subst hr
      exact R.revisited k v (h.keys k (hu k hk)) hp
  · rw [if_neg hk, Option.none_or] at hr
    exact h.resolved k r hr

theorem Rules.consider {body : Body K V} (R : Rules b s c body e D) {source : Source K}
    (hsource : source ∈ b.sources) {keys : List K} : ∀ (ks : List K) {l : OwnedLocals K V},
      (∀ k ∈ ks, k ∈ keys) → D.OwnedHolds c keys l →
        D.OwnedHolds c keys (Builder.consider source l ks)
  | [], _, _, h => h
  | key :: ks, l, hks, h => by
      unfold Builder.consider
      rw [List.foldl_cons]
      refine R.consider hsource ks (fun k hk => hks k (List.mem_cons_of_mem _ hk)) ?_
      split
      · rename_i fault hfault
        exact h.fail (R.unsupported source key fault hsource
          (h.keys key (hks key List.mem_cons_self)) hfault)
      · exact h

theorem Discipline.OwnedHolds.keepStale {keys : List K} {l : OwnedLocals K V}
    (h : D.OwnedHolds c keys l) {key : K} {v : SnapshotValue K V}
    (hv : (v.ageSeconds : WithTop ℚ) ≤ (b.policyFor key).maxStaleSeconds → D.best c.origin key v)
    (hkey : v.key = key) : D.OwnedHolds c keys (b.keepStale l key v) := by
  unfold Builder.keepStale
  split
  · rename_i hage
    refine ⟨h.keys, h.failures, ?_, h.resolved⟩
    intro k w hk
    rw [Dict.get?_set] at hk
    split at hk
    · rename_i he
      cases hk
      rw [he]
      exact ⟨hv hage.1, hkey⟩
    · exact h.best k w hk
  · exact h

theorem OwnedMove.keeps {keys : List K} {l : OwnedLocals K V} {p : OwnedPhase K V}
    (hm : OwnedMove b s c keys l p e m) (R : Rules b s c (.resolveOwned keys l p) e D)
    (hs : s.Keeps D) {i : ℕ} (hi : D.covers i c.origin) (hu : ∀ k ∈ l.unresolved, k ∈ keys)
    (hshape : OwnedShape b s.Called i c keys p)
    (h : D.Holds s.Called c (.resolveOwned keys l p)) : D.Holds called c m.body := by
  obtain ⟨hl, hp⟩ := h
  have hvisit := R.visit hu hl
  cases hm with
  | exhausted =>
    refine ⟨hl, fun k hk => hl.keys k (hu k hk), ?_⟩
    intro v hv
    cases hv
  | settled =>
    refine ⟨hvisit, ?_, ?_⟩
    · intro k hk
      cases hk
    · intro v hv
      cases hv
  | skip hl₁ =>
    subst hl₁
    refine ⟨R.consider (hshape _ List.mem_cons_self) _ ?_ hvisit, trivial⟩
    exact fun k hk => hu k (mem_visit_unresolved (List.mem_of_mem_filter hk))
  | attempt hl₁ _ =>
    subst hl₁
    refine ⟨R.consider (hshape _ List.mem_cons_self) _ ?_ hvisit, trivial⟩
    exact fun k hk => hu k (mem_visit_unresolved (List.mem_of_mem_filter hk))
  | dispatch => exact ⟨hl, trivial⟩
  | @gather source sources chosen children hc =>
    refine ⟨hl, ?_, fun k hk => hl.keys k (hshape.2.1 k hk).1, ?_⟩
    · intro x hx
      obtain ⟨child, hchild, hx⟩ := List.mem_flatMap.mp hx
      obtain ⟨attempts, ho⟩ := Option.isSome_iff_exists.mp (hc child hchild)
      rw [ho] at hx
      obtain ⟨c', source', keys', hf⟩ := workOutcome_some ho
      obtain ⟨hlt, ks, hcalled⟩ := hshape.2.2.2 child hchild
      have hself : s.Called child c' (.work source' keys') := ⟨_, hf, rfl, rfl⟩
      obtain ⟨hscope, hcall⟩ := hself.unique hcalled
      rw [Call.work.injEq] at hcall
      have hcov : D.covers child c'.origin := by
        rw [hscope]
        exact D.covers_mono _ _ _ hlt hi
      have hattempts : D.attempt c'.origin source' x.1 x.2 := (hs child _ hf hcov).2 x hx
      rw [hscope, hcall.1] at hattempts
      exact hattempts
    · intro v hv
      cases hv
  | harvestMissing => exact ⟨hl, R.omittedKey _ (.inl rfl)⟩
  | refuse ha hh =>
    have hattempt := hp.1 _ (Dict.mem_of_find ha)
    exact ⟨hl.fail (R.refused _ _ _ _ hattempt hh), hp.1,
      fun k hk => hp.2.1 k (List.mem_cons_of_mem _ hk), hp.2.2⟩
  | keep ha hh =>
    obtain ⟨hfail, hbest⟩ := R.stale _ _ _ _ _ (hp.1 _ (Dict.mem_of_find ha)) hh
    obtain ⟨payload, _, hval⟩ := harvest_value (.inr hh)
    have hkey := congrArg SnapshotValue.key hval
    exact ⟨(hl.keepStale hbest hkey).fail hfail, hp.1,
      fun k hk => hp.2.1 k (List.mem_cons_of_mem _ hk), hp.2.2⟩
  | accept ha hh =>
    have hvalue := R.fresh _ _ _ _ _ _ _ _ _ _ _ rfl ha (hp.1 _ (Dict.mem_of_find ha)) hh
    obtain ⟨payload, _, hval⟩ := harvest_value (.inl hh)
    have hkey := congrArg SnapshotValue.key hval
    change _ = _ at hkey
    refine ⟨hl.resolve hvalue, hp.1, fun k hk => hp.2.1 k (List.mem_cons_of_mem _ hk), ?_⟩
    intro v hv
    rcases List.mem_append.mp hv with hv | hv
    · exact hp.2.2 v hv
    · rw [List.mem_singleton] at hv
      subst hv
      have hacq := hp.2.1 _ List.mem_cons_self
      dsimp only [Builder.snapshotValue] at hkey
      rw [hkey]
      exact ⟨hacq, hvalue⟩
  | publish => exact ⟨hl, hp.2.2⟩
  | harvested => exact ⟨hl.settle, trivial⟩
  | write =>
    refine ⟨hl, ?_⟩
    intro x hx
    obtain ⟨v, hv, hkey, _⟩ := mem_superseded hx
    refine ⟨?_, R.superseded _ _ hp hx⟩
    rw [hkey]
    exact (hp v hv).1
  | wrote => exact ⟨hl, hp⟩
  | superseded => exact ⟨hl.settle, trivial⟩
  | supersede =>
    have hhead := hp _ List.mem_cons_self
    exact ⟨hl, hhead.1, R.supersedes _ _ _ _ _ _ rfl hhead.1 hhead.2,
      fun x hx => hp x (List.mem_cons_of_mem _ hx)⟩
  | installWinner => exact ⟨hl.resolve (R.installed _ _ rfl hp.2.1), hp.2.2⟩
  | finishStale hb _ =>
    obtain ⟨hbest, hkey⟩ := hl.best _ _ hb
    have hvalue := R.bestStale _ _ _ _ _ _ rfl hb hbest
    refine ⟨hl.resolve hvalue, fun k hk => hp.1 k (List.mem_cons_of_mem _ hk), ?_⟩
    intro v hv
    rcases List.mem_append.mp hv with hv | hv
    · exact hp.2 v hv
    · rw [List.mem_singleton] at hv
      subst hv
      rw [hkey]
      exact ⟨hp.1 _ List.mem_cons_self, hvalue⟩
  | @finishError key rest stales =>
    refine ⟨hl.resolve (R.exhausted key _ ?_), fun k hk => hp.1 k (List.mem_cons_of_mem _ hk), hp.2⟩
    intro f hf
    cases hg : l.failures.get? key with
    | none => rw [hg] at hf; cases hf
    | some fs =>
      rw [hg] at hf
      exact hl.failures key fs hg f hf
  | publishStale => exact ⟨hl, hp.2⟩
  | finished => exact ⟨hl, trivial⟩
  | writeStale => exact ⟨hl, trivial⟩
  | wroteStale => exact ⟨hl, trivial⟩
  | interrupt _ ha => exact ⟨hl, R.interrupted _ ha⟩

/-! ## Units of work, producers and refreshes -/

omit [DecidableEq K] in
theorem attempt_failAll {source : Source K} {keys : List K} {err : Error K}
    (h : ∀ k ∈ keys, D.attempt c.origin source k (.failed err)) :
    ∀ x ∈ failAll keys err, D.attempt c.origin source x.1 x.2 := by
  intro x hx
  obtain ⟨k, hk, rfl⟩ := List.mem_map.mp hx
  exact h k hk

theorem WorkMove.keeps {source : Source K} {keys : List K} {p : WorkPhase K V}
    (hm : WorkMove b s c source keys p e m) (R : Rules b s c (.work source keys p) e D)
    (hs : s.Keeps D) (hcover : Shape b s) {i : ℕ} (hi : D.covers i c.origin)
    (hshape : BodyShape b s.Called i c (.work source keys p : Body K V))
    (h : D.Holds s.Called c (.work source keys p)) : D.Holds called c m.body := by
  obtain ⟨hk, hp⟩ := h
  obtain ⟨hsource, hsupports, hderived, hwork⟩ := hshape
  cases hm with
  | @refuse key rest fault hkeys hd =>
    refine ⟨hk, attempt_failAll ?_⟩
    intro k hmem
    have hkey : k = key := by
      obtain ⟨only, honly⟩ := hderived hwork
      rw [honly] at hkeys hmem
      rw [List.mem_singleton] at hmem
      rw [hmem]
      exact (List.cons.injEq .. ▸ hkeys).1
    rw [hkey] at hmem ⊢
    exact R.undeclared source key fault hsource (hsupports key hmem) hd
  | @cycle key rest declared path hkeys hd hc =>
    refine ⟨hk, attempt_failAll ?_⟩
    intro k hmem
    have hkey : k = key := by
      obtain ⟨only, honly⟩ := hderived hwork
      rw [honly] at hkeys hmem
      rw [List.mem_singleton] at hmem
      rw [hmem]
      exact (List.cons.injEq .. ▸ hkeys).1
    rw [hkey] at hmem ⊢
    exact R.cyclic source key declared path hsource hwork (hsupports key hmem) hd (hk key hmem) hc
  | depend => exact ⟨hk, trivial⟩
  | @resolved child values errors ho he =>
    obtain ⟨c', keys', l', hf, rfl, rfl⟩ := manyOutcome_ok ho
    obtain ⟨hkind, hlt, key, declared, rfl, hdep, hcalled⟩ := hwork
    have hself : s.Called child c' (.many keys') := ⟨_, hf, rfl, rfl⟩
    obtain ⟨hscope, hcall⟩ := hself.unique hcalled
    rw [Call.many.injEq] at hcall
    have hcov : D.covers child c'.origin := by
      rw [hscope]
      exact D.covers_mono _ _ _ hlt hi
    have hserved : ∀ k v, l'.values.get? k = some v → D.served c.origin k v := by
      intro k v hv
      have hchild := (hs child _ hf hcov).1.values k v hv
      rw [hscope] at hchild
      exact hchild
    refine ⟨hk, R.derives source key declared hsource hkind (hsupports key List.mem_cons_self) hdep
      ?_, hserved⟩
    intro d hd
    have hmem : d ∈ keys' := by
      rw [hcall, Dict.mem_fromKeys]
      exact hd
    rcases (hcover.frames child _ hf).body d hmem with hv | herr
    · obtain ⟨v, hv⟩ := Dict.mem_keys.mp hv
      exact ⟨v, hserved d v hv⟩
    · rw [he] at herr
      cases herr
  | unresolved =>
    refine ⟨hk, ?_⟩
    intro x hx
    obtain ⟨k, _, rfl⟩ := List.mem_map.mp hx
    exact R.unresolved _ _ _
  | @childRaised child err ho =>
    obtain ⟨c', keys', l', hf⟩ := manyOutcome_error ho
    obtain ⟨_, hlt, key, declared, _, _, hcalled⟩ := hwork
    have hself : s.Called child c' (.many keys') := ⟨_, hf, rfl, rfl⟩
    have hscope := (hself.unique hcalled).1
    have hcov : D.covers child c'.origin := by
      rw [hscope]
      exact D.covers_mono _ _ _ hlt hi
    have hraised : D.raised c'.origin err := (hs child _ hf hcov).2
    rw [hscope] at hraised
    exact ⟨hk, attempt_failAll fun k _ => R.childRaised _ _ _ hraised⟩
  | isolated => exact ⟨hk, R.versions _ _ _ hp.1 hp.2⟩
  | answerBatch hkind =>
    refine ⟨hk, ?_⟩
    intro x hx
    unfold Builder.batchAttempts at hx
    split at hx
    · obtain ⟨k, hmem, rfl⟩ := List.mem_map.mp hx
      dsimp only
      split
      · exact R.answeredBatch _ _ _ _ _ hp hmem ⟨_, hkind⟩
      · exact R.omitted _ _ _ (.inl rfl)
    · obtain ⟨k, _, rfl⟩ := List.mem_map.mp hx
      exact R.omitted _ _ _ (.inr rfl)
  | answer hkind =>
    refine ⟨hk, ?_⟩
    intro x hx
    obtain ⟨k, hmem, hx⟩ := List.mem_filterMap.mp hx
    obtain ⟨payload, _, rfl⟩ := Option.map_eq_some_iff.mp hx
    exact R.answered _ _ _ _ _ hp hmem
  | interrupt ha => exact ⟨hk, attempt_failAll fun k _ => R.childRaised _ _ _ (R.interrupted _ ha)⟩
  | fail => exact ⟨hk, attempt_failAll fun k hmem => R.failed _ _ _ _ k rfl rfl hmem⟩

theorem ProduceMove.keeps {owned : List K}
    {settled : Dict K (Except (Error K) (ResolutionResult K V))} {p : ProducePhase K V}
    (hm : ProduceMove b s c owned settled p e m) (R : Rules b s c (.produce owned settled p) e D)
    (hs : s.Keeps D) {i : ℕ} (hi : D.covers i c.origin)
    (hshape : ProduceShape s.Called i c owned settled p)
    (h : D.Holds s.Called c (.produce owned settled p)) : D.Holds called c m.body := by
  obtain ⟨hk, hsettled, hp⟩ := h
  cases hm with
  | start => exact ⟨hk, hsettled, trivial⟩
  | @produced child outcome ho =>
    refine ⟨hk, hsettled, ?_⟩
    show D.outcome c.origin (produceOutcome owned outcome)
    cases outcome with
    | ok resolved =>
      obtain ⟨c', keys', l', hf, rfl⟩ := ownedOutcome_ok ho
      have hself : s.Called child c' (.owned keys') := ⟨_, hf, rfl, rfl⟩
      have hscope := (hself.unique hshape.2).1
      have hcov : D.covers child c'.origin := by
        rw [hscope]
        exact D.covers_mono _ _ _ hshape.1 hi
      have hres := (hs child _ hf hcov).1.resolved
      rw [hscope] at hres
      unfold produceOutcome
      dsimp only
      split
      · exact hres
      · exact R.omittedKey _ (.inr rfl)
    | error err =>
      obtain ⟨c', keys', l', hf⟩ := ownedOutcome_error ho
      have hself : s.Called child c' (.owned keys') := ⟨_, hf, rfl, rfl⟩
      have hscope := (hself.unique hshape.2).1
      have hcov : D.covers child c'.origin := by
        rw [hscope]
        exact D.covers_mono _ _ _ hshape.1 hi
      have hraised : D.raised c'.origin err := (hs child _ hf hcov).2
      rw [hscope] at hraised
      exact hraised
  | @complete key rest outcome =>
    refine ⟨hk, ?_, hp⟩
    intro k r hr
    rw [Dict.get?_set] at hr
    split at hr
    · rename_i he
      cases hr
      rw [he]
      unfold completion
      cases outcome with
      | error err => exact hp
      | ok resolved =>
        dsimp only
        cases hg : resolved.get? key with
        | none => exact R.omittedKey _ (.inr rfl)
        | some r => exact hp key r hg
    · exact hsettled k r hr
  | completed => exact ⟨hk, hsettled, trivial⟩

theorem RefreshMove.keeps {key : K} {p : RefreshPhase K} (hm : RefreshMove s c key p e m)
    (R : Rules b s c (.refresh key p) e D) {i : ℕ} (hi : D.covers i c.origin)
    (hlt : i < s.frames.length)
    (hback : ∀ q cp call, called q cp call → s.Called q cp call ∨
      q = s.frames.length ∧ ∃ g, m.spawn = some g ∧ g.scope = cp)
    (h : D.Holds s.Called c (.refresh key p)) : D.Holds called c m.body := by
  cases hm with
  | reserve => exact ⟨h.1, R.reserve hi hlt (fun k hk => hk) hback⟩
  | joined => exact ⟨h.1, trivial⟩
  | joinRaised => exact ⟨h.1, trivial⟩

/-- A copy that arrives keeps the promise made for it. -/
theorem Discipline.Holds.installing {body : Body K V} (h : D.Holds called c body) {k : K}
    {v : SnapshotValue K V} (hcopy : body.installing = some (k, v)) : D.copy c.origin k v := by
  cases body with
  | resolveMany keys l p =>
    cases p with
    | copying key copy rest => cases hcopy; exact h.2.2.1
    | fallback key copy rest => cases hcopy; exact h.2.2.1
    | _ => cases hcopy
  | resolveOwned keys l p =>
    cases p with
    | copyingWinner sources key copy rest => cases hcopy; exact h.2.2.1
    | _ => cases hcopy
  | _ => cases hcopy

/-- What a frame stores in the memo is a value of its key. -/
theorem Rules.installs {body : Body K V} (R : Rules b s c body e D) (h : D.Holds called c body)
    {k : K} {v : SnapshotValue K V} (hi : Installs b s body k v) : D.value c.origin k v := by
  cases hi with
  | copied hcopy => exact R.installed k v hcopy (h.installing hcopy)
  | collected hr => exact h.1.results k _ hr
  | accepted ha hh => exact R.fresh _ _ _ _ _ _ _ _ _ _ _ rfl ha (h.2.1 _ (Dict.mem_of_find ha)) hh
  | kept hb => exact R.bestStale _ _ _ _ _ _ rfl hb (h.1.best _ _ hb).1

/-- What a frame is about to write into the cache are values of its keys. -/
theorem Discipline.Holds.writing {body : Body K V} (h : D.Holds called c body) :
    D.WritesHold c body.writing := by
  have hnil : D.WritesHold c ([] : List (SnapshotValue K V)) := fun v hv => by cases hv
  cases body with
  | resolveOwned keys l p =>
    cases p with
    | writing sources fresh => exact h.2
    | staleWriting stales => exact h.2
    | _ => exact hnil
  | _ => exact hnil

/-! ## Started frames -/

theorem Discipline.holds_owned {c' : Scope K} {keys : List K}
    (h : ∀ k ∈ keys, D.acquired c'.origin c'.ancestry k) (sources : List (Source K)) :
    D.Holds called c' (.resolveOwned keys (.new keys) (.visiting sources)) := by
  refine ⟨⟨h, ?_, ?_, ?_⟩, trivial⟩ <;> intro k x hx <;> simp [OwnedLocals.new] at hx

theorem Discipline.holds_many {c' : Scope K} {keys : List K}
    (h : ∀ k ∈ keys, D.asked c'.origin c'.ancestry k) :
    D.Holds called c' (.resolveMany keys .new .start) := by
  refine ⟨⟨h, ?_, ?_, ?_, ?_, ?_⟩, trivial⟩
  all_goals simp [ManyLocals.new]

theorem Move.spawn_keeps {body : Body K V} (hm : Move b s c body e m) (R : Rules b s c body e D)
    {i : ℕ} (hshape : BodyShape b s.Called i c body) (h : D.Holds s.Called c body) :
    ∀ g, m.spawn = some g → D.Holds called g.scope g.body := by
  intro g hg
  have hproduce : ∀ keys, (∀ k ∈ keys, D.acquired c.origin c.ancestry k) →
      (s.reserve c keys).2.2 = some g → D.Holds called g.scope g.body := by
    intro keys hkeys hr
    obtain ⟨owned, _, howned, rfl⟩ := reserve_spawn_eq hr
    refine ⟨fun k hk => hkeys k (howned k hk).1, ?_, trivial⟩
    intro k r hk
    simp at hk
  cases hm with
  | many hm =>
    cases hm with
    | delegate =>
      cases hg
      refine D.holds_owned ?_ _
      intro k hk
      exact h.1.pending k (List.mem_of_mem_filter hk)
    | hit =>
      rw [schedule_spawn hg]
      exact ⟨R.refreshed _ (h.2 _ List.mem_cons_self).1, trivial⟩
    | reserve => exact hproduce _ h.2 hg
    | _ => cases hg
  | owned hm =>
    cases hm with
    | @dispatch source sources chosen item queue children =>
      cases hg
      obtain ⟨_, hsources, hchosen, hqueue, _⟩ := hshape
      have hitem := (hqueue item List.mem_cons_self).2
      have hacq : ∀ k ∈ item, D.acquired c.origin c.ancestry k :=
        fun k hk => h.1.keys k (hchosen k (hitem k hk)).1
      refine ⟨hacq, ?_⟩
      show D.WorkPoint c source item (if _ then _ else _)
      split
      · trivial
      · rename_i hkind
        exact R.direct source item (hsources source List.mem_cons_self) hkind
          fun k hk => ⟨(hchosen k (hitem k hk)).2, hacq k hk⟩
    | _ => cases hg
  | work hm =>
    cases hm with
    | @depend key rest declared hkeys hd hc =>
      cases hg
      obtain ⟨hsource, hsupports, _, hkind⟩ := hshape
      have hmem : key ∈ key :: rest := List.mem_cons_self
      rw [← hkeys] at hmem
      refine D.holds_many ?_
      intro d hd'
      exact R.depends _ key declared d hsource hkind (hsupports key hmem) hd
        (Dict.mem_fromKeys.mp hd') hc (h.1 key hmem)
    | _ => cases hg
  | produce hm =>
    cases hm with
    | start =>
      cases hg
      exact D.holds_owned h.1 _
    | _ => cases hg
  | refresh hm =>
    cases hm with
    | reserve =>
      refine hproduce _ ?_ hg
      intro k hk
      rw [List.mem_singleton] at hk
      rw [hk]
      exact h.1
    | _ => cases hg

/-! ## Weaker promises -/

/-- Every promise of `D` to frames of this origin implies the same promise of `D'`. -/
structure Discipline.Implies (D D' : Discipline K V) (o : Origin) : Prop where
  asked : ∀ path k, D.asked o path k → D'.asked o path k := by intros; assumption
  acquired : ∀ path k, D.acquired o path k → D'.acquired o path k := by intros; assumption
  clock : ∀ now, D.clock now → D'.clock now := by intros; assumption
  lookup : ∀ k x, D.lookup o k x → D'.lookup o k x := by intros; assumption
  candidate : ∀ k v, D.candidate o k v → D'.candidate o k v := by intros; assumption
  copy : ∀ k v, D.copy o k v → D'.copy o k v := by intros; assumption
  served : ∀ k v, D.served o k v → D'.served o k v := by intros; assumption
  value : ∀ k v, D.value o k v → D'.value o k v := by intros; assumption
  best : ∀ k v, D.best o k v → D'.best o k v := by intros; assumption
  winner : ∀ k v, D.winner o k v → D'.winner o k v := by intros; assumption
  error : ∀ k x, D.error o k x → D'.error o k x := by intros; assumption
  raised : ∀ x, D.raised o x → D'.raised o x := by intros; assumption
  failure : ∀ k x, D.failure o k x → D'.failure o k x := by intros; assumption
  attempt : ∀ x k a, D.attempt o x k a → D'.attempt o x k a := by intros; assumption
  derivable : ∀ x ks, D.derivable o x ks → D'.derivable o x ks := by intros; assumption
  dependencies : ∀ x ks n, D.dependencies o x ks n → D'.dependencies o x ks n := by
    intros; assumption
  joinable : ∀ q o', D.joinable q o' o → D'.joinable q o' o := by intros; assumption

section
variable {D' : Discipline K V} {o : Origin}

omit [DecidableEq K] in
theorem Discipline.Implies.result (I : D.Implies D' o) {k : K} {r : ResolutionResult K V}
    (h : D.result o k r) : D'.result o k r := by
  cases r with
  | ok v => exact I.value k v h
  | error err => exact I.error k err h

omit [DecidableEq K] in
theorem Discipline.Implies.settlement (I : D.Implies D' o) {k : K}
    {r : Except (Error K) (ResolutionResult K V)} (h : D.settlement o k r) :
    D'.settlement o k r := by
  cases r with
  | ok r => exact I.result h
  | error err => exact I.raised err h

theorem Discipline.Implies.outcome (I : D.Implies D' o)
    {r : Except (Error K) (Dict K (ResolutionResult K V))} (h : D.outcome o r) :
    D'.outcome o r := by
  cases r with
  | ok resolved => exact fun k r hr => I.result (h k r hr)
  | error err => exact I.raised err h

theorem Discipline.Implies.many (I : D.Implies D' c.origin) {keys : List K} {l : ManyLocals K V}
    {p : ManyPhase K V} (h : D.ManyHolds c keys l ∧ D.ManyPoint called c p) :
    D'.ManyHolds c keys l ∧ D'.ManyPoint called c p := by
  obtain ⟨hl, hp⟩ := h
  have hlookups : ∀ lookups, D.LookupsHold c lookups → D'.LookupsHold c lookups :=
    fun lookups h x hx => ⟨I.acquired _ _ (h x hx).1, I.lookup _ _ (h x hx).2⟩
  refine ⟨⟨fun k hk => I.asked _ _ (hl.keys k hk), fun k v hv => I.served _ _ (hl.values k v hv),
    fun k x hx => I.error _ _ (hl.errors k x hx),
    fun k v hv => I.candidate _ _ (hl.candidates k v hv),
    fun k hk => I.acquired _ _ (hl.pending k hk), fun k r hr => I.result (hl.results k r hr)⟩, ?_⟩
  cases p with
  | reading cacheKeys now => exact ⟨I.clock _ hp.1, fun k hk => I.acquired _ _ (hp.2 k hk)⟩
  | isolating lookups => exact hlookups _ hp
  | serving lookups => exact hlookups _ hp
  | copying key copy rest =>
    exact ⟨I.acquired _ _ hp.1, I.copy _ _ hp.2.1, hlookups _ hp.2.2⟩
  | resolving child shared => exact fun k hk => I.acquired _ _ (hp k hk)
  | reserving shared => exact fun k hk => I.acquired _ _ (hp k hk)
  | joining futures =>
    exact fun x hx => ⟨I.acquired _ _ (hp x hx).1,
      fun cp owned hc => I.joinable _ _ ((hp x hx).2 cp owned hc)⟩
  | collecting rest => exact fun k hk => I.acquired _ _ (hp k hk)
  | fallback key copy rest =>
    exact ⟨I.acquired _ _ hp.1, I.copy _ _ hp.2.1, fun k hk => I.acquired _ _ (hp.2.2 k hk)⟩
  | raised err => exact I.raised _ hp
  | start => trivial
  | done => trivial

theorem Discipline.Implies.owned (I : D.Implies D' c.origin) {keys : List K} {l : OwnedLocals K V}
    {p : OwnedPhase K V} (h : D.OwnedHolds c keys l ∧ D.OwnedPoint c p) :
    D'.OwnedHolds c keys l ∧ D'.OwnedPoint c p := by
  obtain ⟨hl, hp⟩ := h
  have hwrites : ∀ values, D.WritesHold c values → D'.WritesHold c values :=
    fun values h v hv => ⟨I.acquired _ _ (h v hv).1, I.value _ _ (h v hv).2⟩
  have hwinners : ∀ winners, D.WinnersHold c winners → D'.WinnersHold c winners :=
    fun winners h x hx => ⟨I.acquired _ _ (h x hx).1, I.winner _ _ (h x hx).2⟩
  refine ⟨⟨fun k hk => I.acquired _ _ (hl.keys k hk),
    fun k fs hk x hx => I.failure _ _ (hl.failures k fs hk x hx),
    fun k v hv => ⟨I.best _ _ (hl.best k v hv).1, (hl.best k v hv).2⟩,
    fun k r hr => I.result (hl.resolved k r hr)⟩, ?_⟩
  cases p with
  | harvesting source sources attempts rest fresh =>
    exact ⟨fun x hx => I.attempt _ _ _ (hp.1 x hx), fun k hk => I.acquired _ _ (hp.2.1 k hk),
      hwrites _ hp.2.2⟩
  | writing sources fresh => exact hwrites _ hp
  | written sources winners => exact hwinners _ hp
  | superseding sources winners => exact hwinners _ hp
  | copyingWinner sources key copy rest =>
    exact ⟨I.acquired _ _ hp.1, I.copy _ _ hp.2.1, hwinners _ hp.2.2⟩
  | finishing rest stales => exact ⟨fun k hk => I.acquired _ _ (hp.1 k hk), hwrites _ hp.2⟩
  | staleWriting stales => exact hwrites _ hp
  | raised err => exact I.raised _ hp
  | visiting sources => trivial
  | attempting source sources chosen queue children => trivial
  | staleWritten => trivial
  | done => trivial

theorem Discipline.Holds.imp (I : D.Implies D' c.origin) {body : Body K V}
    (h : D.Holds called c body) : D'.Holds called c body := by
  cases body with
  | resolveMany keys l p => exact I.many h
  | resolveOwned keys l p => exact I.owned h
  | work source keys p =>
    obtain ⟨hk, hp⟩ := h
    refine ⟨fun k hmem => I.acquired _ _ (hk k hmem), ?_⟩
    cases p with
    | isolating values => exact ⟨I.derivable _ _ hp.1, fun k v hv => I.served _ _ (hp.2 k v hv)⟩
    | calling versions => exact I.dependencies _ _ _ hp
    | done attempts => exact fun x hx => I.attempt _ _ _ (hp x hx)
    | start => trivial
    | resolving child => trivial
  | produce owned settled p =>
    obtain ⟨hk, hs, hp⟩ := h
    refine ⟨fun k hmem => I.acquired _ _ (hk k hmem), fun k r hr => I.settlement (hs k r hr), ?_⟩
    cases p with
    | completing rest outcome => exact I.outcome hp
    | _ => trivial
  | refresh key p =>
    obtain ⟨hk, hp⟩ := h
    refine ⟨I.acquired _ _ hk, ?_⟩
    cases p with
    | joining futures => exact fun x hx cp owned hc => I.joinable _ _ (hp x hx cp owned hc)
    | _ => trivial

end

/-! ## Steps -/

/-- New frames do not change what an old frame promises. -/
theorem Discipline.Holds.recall {called' : ℕ → Scope K → Call K → Prop} {body : Body K V} {i : ℕ}
    (hshape : BodyShape b called i c body)
    (hback : ∀ q cp owned, called' q cp (.produce owned) → (∃ cq call, called q cq call) →
      called q cp (.produce owned))
    (h : D.Holds called c body) : D.Holds called' c body := by
  cases body with
  | resolveMany keys l p =>
    refine ⟨h.1, ?_⟩
    have hp := h.2
    cases p with
    | joining futures =>
      intro x hx
      refine ⟨(hp x hx).1, fun cp owned hcalled => (hp x hx).2 cp owned ?_⟩
      obtain ⟨⟨cq, owned', hcq, _⟩, _⟩ := hshape.2.1 x hx
      exact hback _ _ _ hcalled ⟨cq, _, hcq⟩
    | _ => exact hp
  | resolveOwned keys l p => exact h
  | work source keys p => exact h
  | produce owned settled p => exact h
  | refresh key p =>
    refine ⟨h.1, ?_⟩
    have hp := h.2
    cases p with
    | joining futures =>
      intro x hx cp owned hcalled
      obtain ⟨⟨cq, owned', hcq, _⟩, _⟩ := hshape.2 x hx
      exact hp x hx cp owned (hback _ _ _ hcalled ⟨cq, _, hcq⟩)
    | _ => trivial

/-- Whoever runs after a move ran before it, or has just been started. -/
theorem called_apply {i : ℕ} {f : Frame K V} (hf : s.frame? i = some f)
    (hm : Move b s f.scope f.body e m) {q : ℕ} {cp : Scope K} {call : Call K}
    (h : (s.apply i f m).Called q cp call) : s.Called q cp call ∨
      q = s.frames.length ∧ ∃ g, m.spawn = some g ∧ g.scope = cp := by
  obtain ⟨g, hg, hscope, hcall⟩ := h
  rcases frame?_apply_cases hf hg with ⟨rfl, rfl⟩ | ⟨rfl, hsp⟩ | ⟨_, hg⟩
  · exact .inl ⟨f, hf, hscope, by rw [← hcall]; exact hm.call.symm⟩
  · exact .inr ⟨rfl, g, hsp, hscope⟩
  · exact .inl ⟨g, hg, hscope, hcall⟩

/-- If the rules hold for the moves of covered frames, what other frames start keeps its promises,
and the keys of a call are promised, then every covered frame keeps its promises. -/
theorem Stepped.keeps {t : State K V} {l : Label K V} (h : Stepped b s l t) (hshape : Shape b s)
    (hs : s.Keeps D)
    (hrules : ∀ i e f m, l = .run i e → s.frame? i = some f → Move b s f.scope f.body e m →
      D.covers i f.scope.origin → Rules b s f.scope f.body e D)
    (hspawn : ∀ i e f m g, l = .run i e → s.frame? i = some f → Move b s f.scope f.body e m →
      ¬ D.covers i f.scope.origin → m.spawn = some g → D.covers s.frames.length g.scope.origin →
      D.Holds t.Called g.scope g.body)
    (hcall : ∀ runtime deadline keys k, l = .call runtime deadline keys → k ∈ keys →
      D.asked (deadline, runtime) [] k) : t.Keeps D := by
  cases h with
  | @run i e f m hf hm =>
    have hback : ∀ q cp call, (s.apply i f m).Called q cp call → s.Called q cp call ∨
        q = s.frames.length ∧ ∃ g, m.spawn = some g ∧ g.scope = cp :=
      fun q cp call hq => called_apply hf hm hq
    have hbody := (hshape.frames i f hf).body
    intro j g hj hcov
    rcases frame?_apply_cases hf hj with ⟨rfl, rfl⟩ | ⟨rfl, hsp⟩ | ⟨_, hg⟩
    · have hold := hs j f hf hcov
      have R := hrules j e f m rfl hf hm hcov
      have hlt := lt_of_frame? hf
      obtain ⟨c, body⟩ := f
      cases hm with
      | many hm => exact hm.keeps R hs hcov hlt hbody hback hold
      | owned hm => exact hm.keeps R hs hcov hbody.1 hbody.2 hold
      | work hm => exact hm.keeps R hs hshape hcov hbody hold
      | produce hm => exact hm.keeps R hs hcov hbody.2 hold
      | refresh hm => exact hm.keeps R hcov hlt hback hold
    · by_cases hi : D.covers i f.scope.origin
      · exact hm.spawn_keeps (hrules i e f m rfl hf hm hi) hbody (hs i f hf hi) g hsp
      · exact hspawn i e f m g rfl hf hm hi hsp hcov
    · refine (hs j g hg hcov).recall (hshape.frames j g hg).body ?_
      rintro q cp owned hq ⟨cq, call, hcq⟩
      rcases hback q cp _ hq with hold | ⟨rfl, _⟩
      · exact hold
      · exact absurd hcq.lt (lt_irrefl _)
  | tick => exact hs
  | openRuntime => exact hs
  | @call runtime deadline keys hr =>
    intro j g hj hcov
    rcases frame?_append_cases hj with hg | ⟨_, rfl⟩
    · refine (hs j g hg hcov).recall (hshape.frames j g hg).body ?_
      rintro q cp owned ⟨g', hg', hscope, hc⟩ ⟨cq, call, hcq⟩
      rcases frame?_append_cases hg' with hold | ⟨rfl, _⟩
      · exact ⟨g', hold, hscope, hc⟩
      · exact absurd hcq.lt (lt_irrefl _)
    · refine D.holds_many ?_
      intro k hk
      exact hcall runtime deadline keys k rfl (Dict.mem_fromKeys.mp hk)
  | external => exact hs

end
end Coalestra
