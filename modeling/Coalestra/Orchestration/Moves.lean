import Coalestra.Orchestration.Machine

/-! # What a move can do

`Move` lists the moves of every coroutine, one constructor each, with the tests that lead to it.
`move_cases` says that there are no others, so an invariant is proved by cases on `Move` and never
unfolds the machine. `State.apply_frame?` says which frames a state after a move has. -/

namespace Coalestra
set_option autoImplicit false
set_option maxHeartbeats 250000

section
variable {K V : Type} [DecidableEq K]

/-- The awaits of `_resolve_many` that may raise by themselves. -/
def ManyPhase.interruptible : ManyPhase K V → Bool
  | .reading _ _ | .isolating _ | .copying _ _ _ | .fallback _ _ _ => true
  | _ => false

/-- The awaits of `_resolve_owned_keys` that may raise by themselves. -/
def OwnedPhase.interruptible : OwnedPhase K V → Bool
  | .writing _ _ | .written _ _ | .copyingWinner _ _ _ _ | .staleWriting _ | .staleWritten => true
  | _ => false

/-- The keys about to be reserved in `SingleFlight.run_many`. -/
def Body.reserving : Body K V → List K
  | .resolveMany _ _ (.reserving shared) => shared
  | .refresh key .reserving => [key]
  | _ => []

/-- The copy that this await installs in the memo. -/
def Body.installing : Body K V → Option (K × SnapshotValue K V)
  | .resolveMany _ _ (.copying key copy _) => some (key, copy)
  | .resolveMany _ _ (.fallback key copy _) => some (key, copy)
  | .resolveOwned _ _ (.copyingWinner _ key copy _) => some (key, copy)
  | _ => none

/-- The moves of `_resolve_many`. -/
inductive ManyMove (b : Builder K V) (s : State K V) (c : Scope K) (keys : List K)
    (l : ManyLocals K V) : ManyPhase K V → Event K V → Step K V → Prop
  | start : ManyMove b s c keys l .start .go
      ⟨s.toShared, .resolveMany keys
        { l with
          values := .comprehend keys (s.runtime c.runtime).pinned
          pending := keys.filter (s.runtime c.runtime).requiresRefresh }
        (if cacheKeysOf (s.runtime c.runtime) keys = [] then .serving []
          else .reading (cacheKeysOf (s.runtime c.runtime) keys) s.now), none⟩
  | read {cacheKeys : List K} {now : ℚ} : ManyMove b s c keys l (.reading cacheKeys now) .go
      ⟨{ s.toShared with cache := (s.cache.getMany now b.policyFor cacheKeys).2 },
        .resolveMany keys l (.isolating (s.cache.getMany now b.policyFor cacheKeys).1), none⟩
  | isolate {lookups : List (K × CacheLookup K V)} : ManyMove b s c keys l (.isolating lookups) .go
      ⟨s.toShared, .resolveMany keys l
        (.serving (lookups.map fun e => (e.1, isolatedLookup b.copier e.2))), none⟩
  | served (hp : l.pending = []) : ManyMove b s c keys l (.serving []) .go
      ⟨s.toShared, .resolveMany keys l .done, none⟩
  | share (hd : l.pending.filter (ownsDirectly c (s.runtime c.runtime)) = []) :
      ManyMove b s c keys l (.serving []) .go
      ⟨s.toShared, .resolveMany keys l (.reserving
        (l.pending.filter fun key => !ownsDirectly c (s.runtime c.runtime) key)), none⟩
  | delegate (hd : l.pending.filter (ownsDirectly c (s.runtime c.runtime)) ≠ []) :
      ManyMove b s c keys l (.serving []) .go
      ⟨s.toShared, .resolveMany keys l (.resolving s.frames.length
        (l.pending.filter fun key => !ownsDirectly c (s.runtime c.runtime) key)),
        some ⟨{ c with localOwned :=
            c.localOwned ++ l.pending.filter (ownsDirectly c (s.runtime c.runtime)) },
          .resolveOwned (l.pending.filter (ownsDirectly c (s.runtime c.runtime)))
            (.new (l.pending.filter (ownsDirectly c (s.runtime c.runtime))))
            (.visiting b.sources)⟩⟩
  | hit {key : K} {lookup : CacheLookup K V} {rest : List (K × CacheLookup K V)}
      {value : SnapshotValue K V} {stale wanted : Bool} (hv : lookup.value = some value)
      (hs : stale = false ∧ lookup.fresh = true ∨
        stale = true ∧ lookup.fresh = false ∧ lookup.usableStale = true ∧
          (b.policyFor key).refreshMode = .staleWhileRevalidate) :
      ManyMove b s c keys l (.serving ((key, lookup) :: rest)) .go
      ⟨(s.schedule key wanted).1,
        .resolveMany keys l (.copying key (b.cachedCopy s.now stale value) rest),
        (s.schedule key wanted).2⟩
  | miss {key : K} {lookup : CacheLookup K V} {rest : List (K × CacheLookup K V)} :
      ManyMove b s c keys l (.serving ((key, lookup) :: rest)) .go
      ⟨s.toShared, .resolveMany keys { l with pending := l.pending ++ [key] } (.serving rest), none⟩
  | missStale {key : K} {lookup : CacheLookup K V} {rest : List (K × CacheLookup K V)}
      {value : SnapshotValue K V} (hv : lookup.value = some value) (hf : lookup.fresh = false)
      (hu : lookup.usableStale = true) :
      ManyMove b s c keys l (.serving ((key, lookup) :: rest)) .go
      ⟨s.toShared, .resolveMany keys
        { l with
          pending := l.pending ++ [key]
          staleCandidates := l.staleCandidates.set key value } (.serving rest), none⟩
  | install {key : K} {copy : SnapshotValue K V} {rest : List (K × CacheLookup K V)} :
      ManyMove b s c keys l (.copying key copy rest) .go
      ⟨s.toShared.remember c.runtime key copy,
        .resolveMany keys { l with values := l.values.set key copy } (.serving rest), none⟩
  | delegated {child : ℕ} {shared : List K} {resolved : Dict K (ResolutionResult K V)}
      (ho : s.ownedOutcome child = some (.ok resolved)) :
      ManyMove b s c keys l (.resolving child shared) .go
      ⟨s.toShared, .resolveMany keys { l with results := l.results.update resolved }
        (if shared = [] then .collecting l.pending else .reserving shared), none⟩
  | delegateRaised {child : ℕ} {shared : List K} {e : Error K}
      (ho : s.ownedOutcome child = some (.error e)) :
      ManyMove b s c keys l (.resolving child shared) .go
      ⟨s.toShared, .resolveMany keys l (.raised e), none⟩
  | reserve {shared : List K} : ManyMove b s c keys l (.reserving shared) .go
      ⟨(s.reserve c shared).2.1, .resolveMany keys l (.joining (s.reserve c shared).1),
        (s.reserve c shared).2.2⟩
  | joined {futures : List (K × ℕ)} {joined : Dict K (ResolutionResult K V)}
      (hj : s.joined futures = some joined) : ManyMove b s c keys l (.joining futures) .go
      ⟨s.toShared, .resolveMany keys { l with results := l.results.update joined }
        (.collecting l.pending), none⟩
  | joinRaised {futures : List (K × ℕ)} {key : K} {e : Error K}
      (hj : s.joinFailure futures key = some e) :
      ManyMove b s c keys l (.joining futures) (.failed key)
      ⟨s.toShared, .resolveMany keys l (.raised e), none⟩
  | collected : ManyMove b s c keys l (.collecting []) .go
      ⟨s.toShared, .resolveMany keys l .done, none⟩
  | collectMissing {key : K} {rest : List K} (hr : l.results.get? key = none) :
      ManyMove b s c keys l (.collecting (key :: rest)) .go
      ⟨s.toShared, .resolveMany keys l (.raised (.other "KeyError")), none⟩
  | collectValue {key : K} {rest : List K} {value : SnapshotValue K V}
      (hr : l.results.get? key = some (.ok value)) :
      ManyMove b s c keys l (.collecting (key :: rest)) .go
      ⟨s.toShared.refresh c.runtime key value,
        .resolveMany keys { l with values := l.values.set key value } (.collecting rest), none⟩
  | collectError {key : K} {rest : List K} {e : Error K}
      (hr : l.results.get? key = some (.error e)) :
      ManyMove b s c keys l (.collecting (key :: rest)) .go
      ⟨s.toShared, .resolveMany keys { l with errors := l.errors.set key e } (.collecting rest),
        none⟩
  | collectStale {key : K} {rest : List K} {e : Error K} {value : SnapshotValue K V}
      (hr : l.results.get? key = some (.error e))
      (hc : l.staleCandidates.get? key = some value) :
      ManyMove b s c keys l (.collecting (key :: rest)) .go
      ⟨s.toShared, .resolveMany keys l (.fallback key (b.cachedCopy s.now true value) rest), none⟩
  | fallBack {key : K} {copy : SnapshotValue K V} {rest : List K} :
      ManyMove b s c keys l (.fallback key copy rest) .go
      ⟨s.toShared.remember c.runtime key copy,
        .resolveMany keys { l with values := l.values.set key copy } (.collecting rest), none⟩
  | interrupt {p : ManyPhase K V} {fault : Fault} (hp : p.interruptible = true)
      (ha : c.admits fault = true) : ManyMove b s c keys l p (.raise fault)
      ⟨s.toShared, .resolveMany keys l (.raised fault.error), none⟩

/-- The moves of `_resolve_owned_keys`. -/
inductive OwnedMove (b : Builder K V) (s : State K V) (c : Scope K) (keys : List K)
    (l : OwnedLocals K V) : OwnedPhase K V → Event K V → Step K V → Prop
  | exhausted : OwnedMove b s c keys l (.visiting []) .go
      ⟨s.toShared, .resolveOwned keys l (.finishing l.unresolved []), none⟩
  | settled {source : Source K} {sources : List (Source K)}
      (hu : (Builder.visit (s.runtime c.runtime) l).unresolved = []) :
      OwnedMove b s c keys l (.visiting (source :: sources)) .go
      ⟨s.toShared, .resolveOwned keys (Builder.visit (s.runtime c.runtime) l) (.finishing [] []),
        none⟩
  | skip {source : Source K} {sources : List (Source K)} {l₁ : OwnedLocals K V}
      (hl : l₁ = Builder.visit (s.runtime c.runtime) l) :
      OwnedMove b s c keys l (.visiting (source :: sources)) .go
      ⟨s.toShared, .resolveOwned keys
        (Builder.consider source l₁ (consideredKeys (s.runtime c.runtime) source l₁))
        (.visiting sources), none⟩
  | attempt {source : Source K} {sources : List (Source K)} {l₁ : OwnedLocals K V}
      {chosen : List K} (hl : l₁ = Builder.visit (s.runtime c.runtime) l)
      (hc : chosen = Builder.candidates source (consideredKeys (s.runtime c.runtime) source l₁)) :
      OwnedMove b s c keys l (.visiting (source :: sources)) .go
      ⟨s.toShared, .resolveOwned keys
        (Builder.consider source l₁ (consideredKeys (s.runtime c.runtime) source l₁))
        (.attempting source sources chosen (source.items chosen) []), none⟩
  | dispatch {source : Source K} {sources : List (Source K)} {chosen item : List K}
      {queue : List (List K)} {children : List ℕ} :
      OwnedMove b s c keys l (.attempting source sources chosen (item :: queue) children) .go
      ⟨s.toShared, .resolveOwned keys l
          (.attempting source sources chosen queue (children ++ [s.frames.length])),
        some ⟨c, .work source item (if source.kind = .derived then .start else .calling .empty)⟩⟩
  | gather {source : Source K} {sources : List (Source K)} {chosen : List K} {children : List ℕ}
      (hc : ∀ i ∈ children, (s.workOutcome i).isSome) :
      OwnedMove b s c keys l (.attempting source sources chosen [] children) .go
      ⟨s.toShared, .resolveOwned keys l (.harvesting source sources
        (children.flatMap fun i => (s.workOutcome i).getD []) chosen []), none⟩
  | harvestMissing {source : Source K} {sources : List (Source K)}
      {attempts : List (K × SourceAttempt K V)} {key : K} {rest : List K}
      {fresh : List (SnapshotValue K V)} (ha : Dict.find attempts key = none) :
      OwnedMove b s c keys l (.harvesting source sources attempts (key :: rest) fresh) .go
      ⟨s.toShared, .resolveOwned keys l (.raised (.other "KeyError")), none⟩
  | refuse {source : Source K} {sources : List (Source K)}
      {attempts : List (K × SourceAttempt K V)} {attempt : SourceAttempt K V} {key : K}
      {rest : List K} {fresh : List (SnapshotValue K V)} {failure : SourceFailure}
      (ha : Dict.find attempts key = some attempt)
      (hh : b.harvest s.now s.revisions.length source key attempt = .refused failure) :
      OwnedMove b s c keys l (.harvesting source sources attempts (key :: rest) fresh) .go
      ⟨s.toShared, .resolveOwned keys (l.fail key failure)
        (.harvesting source sources attempts rest fresh), none⟩
  | keep {source : Source K} {sources : List (Source K)} {attempts : List (K × SourceAttempt K V)}
      {attempt : SourceAttempt K V} {key : K} {rest : List K} {fresh : List (SnapshotValue K V)}
      {value : SnapshotValue K V} {versions : Dict K ℕ}
      (ha : Dict.find attempts key = some attempt)
      (hh : b.harvest s.now s.revisions.length source key attempt = .stale value versions) :
      OwnedMove b s c keys l (.harvesting source sources attempts (key :: rest) fresh) .go
      ⟨s.toShared.issue versions,
        .resolveOwned keys ((b.keepStale l key value).fail key ⟨source.name, "StaleSourceData"⟩)
          (.harvesting source sources attempts rest fresh), none⟩
  | accept {source : Source K} {sources : List (Source K)}
      {attempts : List (K × SourceAttempt K V)} {attempt : SourceAttempt K V} {key : K}
      {rest : List K} {fresh : List (SnapshotValue K V)} {value : SnapshotValue K V}
      {versions : Dict K ℕ} (ha : Dict.find attempts key = some attempt)
      (hh : b.harvest s.now s.revisions.length source key attempt = .fresh value versions) :
      OwnedMove b s c keys l (.harvesting source sources attempts (key :: rest) fresh) .go
      ⟨(s.toShared.issue versions).refresh c.runtime key value,
        .resolveOwned keys { l with resolved := l.resolved.set key (.ok value) }
          (.harvesting source sources attempts rest (fresh ++ [value])), none⟩
  | publish {source : Source K} {sources : List (Source K)}
      {attempts : List (K × SourceAttempt K V)} {fresh : List (SnapshotValue K V)} :
      OwnedMove b s c keys l (.harvesting source sources attempts [] fresh) .go
      ⟨s.toShared, .resolveOwned keys l (.writing sources fresh), none⟩
  | harvested {source : Source K} {sources : List (Source K)}
      {attempts : List (K × SourceAttempt K V)} {fresh : List (SnapshotValue K V)} :
      OwnedMove b s c keys l (.harvesting source sources attempts [] fresh) .go
      ⟨s.toShared, .resolveOwned keys l.settle (.visiting sources), none⟩
  | write {sources : List (Source K)} {fresh : List (SnapshotValue K V)} :
      OwnedMove b s c keys l (.writing sources fresh) .go
      ⟨{ s.toShared with cache := (b.setMany s.cache fresh).2 }, .resolveOwned keys l
        (.written sources (superseded b fresh (b.setMany s.cache fresh).1)), none⟩
  | wrote {sources : List (Source K)} {winners : List (K × SnapshotValue K V)} :
      OwnedMove b s c keys l (.written sources winners) .go
      ⟨s.toShared, .resolveOwned keys l (.superseding sources winners), none⟩
  | superseded {sources : List (Source K)} : OwnedMove b s c keys l (.superseding sources []) .go
      ⟨s.toShared, .resolveOwned keys l.settle (.visiting sources), none⟩
  | supersede {sources : List (Source K)} {key : K} {winner : SnapshotValue K V}
      {rest : List (K × SnapshotValue K V)} :
      OwnedMove b s c keys l (.superseding sources ((key, winner) :: rest)) .go
      ⟨s.toShared, .resolveOwned keys l
        (.copyingWinner sources key (b.cachedCopy s.now false winner) rest), none⟩
  | installWinner {sources : List (Source K)} {key : K} {copy : SnapshotValue K V}
      {rest : List (K × SnapshotValue K V)} :
      OwnedMove b s c keys l (.copyingWinner sources key copy rest) .go
      ⟨s.toShared.remember c.runtime key copy,
        .resolveOwned keys { l with resolved := l.resolved.set key (.ok copy) }
          (.superseding sources rest), none⟩
  | finishStale {key : K} {rest : List K} {stales : List (SnapshotValue K V)}
      {stale : SnapshotValue K V} (hb : l.bestStale.get? key = some stale)
      (hr : (s.runtime c.runtime).requiresRefresh key = false) :
      OwnedMove b s c keys l (.finishing (key :: rest) stales) .go
      ⟨s.toShared.remember c.runtime key stale,
        .resolveOwned keys { l with resolved := l.resolved.set key (.ok stale) }
          (.finishing rest (stales ++ [stale])), none⟩
  | finishError {key : K} {rest : List K} {stales : List (SnapshotValue K V)} :
      OwnedMove b s c keys l (.finishing (key :: rest) stales) .go
      ⟨s.toShared, .resolveOwned keys (l.giveUp key) (.finishing rest stales), none⟩
  | publishStale {stales : List (SnapshotValue K V)} :
      OwnedMove b s c keys l (.finishing [] stales) .go
      ⟨s.toShared, .resolveOwned keys l (.staleWriting stales), none⟩
  | finished {stales : List (SnapshotValue K V)} : OwnedMove b s c keys l (.finishing [] stales) .go
      ⟨s.toShared, .resolveOwned keys l .done, none⟩
  | writeStale {stales : List (SnapshotValue K V)} : OwnedMove b s c keys l (.staleWriting stales) .go
      ⟨{ s.toShared with cache := (b.setMany s.cache stales).2 },
        .resolveOwned keys l .staleWritten, none⟩
  | wroteStale : OwnedMove b s c keys l .staleWritten .go
      ⟨s.toShared, .resolveOwned keys l .done, none⟩
  | interrupt {p : OwnedPhase K V} {fault : Fault} (hp : p.interruptible = true)
      (ha : c.admits fault = true) : OwnedMove b s c keys l p (.raise fault)
      ⟨s.toShared, .resolveOwned keys l (.raised fault.error), none⟩

/-- The moves of one unit of work. -/
inductive WorkMove (b : Builder K V) (s : State K V) (c : Scope K) (source : Source K)
    (keys : List K) : WorkPhase K V → Event K V → Step K V → Prop
  | refuse {key : K} {rest : List K} {fault : Fault} (hk : keys = key :: rest)
      (hd : source.dependencies key = .error fault) : WorkMove b s c source keys .start .go
      ⟨s.toShared, .work source keys (.done (failAll keys fault.error)), none⟩
  | cycle {key : K} {rest declared path : List K} (hk : keys = key :: rest)
      (hd : source.dependencies key = .ok declared)
      (hc : Builder.cycleIn (c.ancestry ++ [key]) (Dict.fromKeys declared) = some path) :
      WorkMove b s c source keys .start .go
      ⟨s.toShared, .work source keys (.done (failAll keys (.dependencyCycle path))), none⟩
  | depend {key : K} {rest declared : List K} (hk : keys = key :: rest)
      (hd : source.dependencies key = .ok declared)
      (hc : Builder.cycleIn (c.ancestry ++ [key]) (Dict.fromKeys declared) = none) :
      WorkMove b s c source keys .start .go
      ⟨s.toShared, .work source keys (.resolving s.frames.length),
        some ⟨{ c with ancestry := c.ancestry ++ [key] },
          .resolveMany (Dict.fromKeys declared) .new .start⟩⟩
  | resolved {child : ℕ} {values : Dict K (SnapshotValue K V)} {errors : Dict K (Error K)}
      (ho : s.manyOutcome child = some (.ok (values, errors))) (he : errors.keys = []) :
      WorkMove b s c source keys (.resolving child) .go
      ⟨s.toShared, .work source keys (.isolating values), none⟩
  | unresolved {child : ℕ} {values : Dict K (SnapshotValue K V)} {errors : Dict K (Error K)}
      (ho : s.manyOutcome child = some (.ok (values, errors))) (he : errors.keys ≠ []) :
      WorkMove b s c source keys (.resolving child) .go
      ⟨s.toShared, .work source keys (.done (keys.map fun key =>
        (key, .failed (.dependencyResolution key source.name errors.keys)))), none⟩
  | childRaised {child : ℕ} {e : Error K} (ho : s.manyOutcome child = some (.error e)) :
      WorkMove b s c source keys (.resolving child) .go
      ⟨s.toShared, .work source keys (.done (failAll keys e)), none⟩
  | isolated {values : Dict K (SnapshotValue K V)} : WorkMove b s c source keys (.isolating values) .go
      ⟨s.toShared, .work source keys (.calling (.comprehend values.keys fun key =>
        (values.get? key).map SnapshotValue.version)), none⟩
  | answerBatch {versions : Dict K ℕ} {payloads : Dict K (SourcePayload V)} {size : Option ℕ+}
      (hk : source.kind = .batch size) :
      WorkMove b s c source keys (.calling versions) (.answer payloads)
      ⟨s.toShared, .work source keys (.done (b.batchAttempts s.now keys payloads)), none⟩
  | answer {versions : Dict K ℕ} {payloads : Dict K (SourcePayload V)}
      (hk : ∀ size, source.kind ≠ .batch size) :
      WorkMove b s c source keys (.calling versions) (.answer payloads)
      ⟨s.toShared, .work source keys (.done (keys.filterMap fun key =>
        (payloads.get? key).map fun payload => (key, b.attemptOf s.now versions payload))), none⟩
  | interrupt {values : Dict K (SnapshotValue K V)} {fault : Fault}
      (ha : c.admits fault = true) : WorkMove b s c source keys (.isolating values) (.raise fault)
      ⟨s.toShared, .work source keys (.done (failAll keys fault.error)), none⟩
  | fail {versions : Dict K ℕ} {fault : Fault} :
      WorkMove b s c source keys (.calling versions) (.raise fault)
      ⟨s.toShared, .work source keys (.done (failAll keys fault.error)), none⟩

/-- The moves of `_produce`. -/
inductive ProduceMove (b : Builder K V) (s : State K V) (c : Scope K) (owned : List K)
    (settled : Dict K (Except (Error K) (ResolutionResult K V))) :
    ProducePhase K V → Event K V → Step K V → Prop
  | start : ProduceMove b s c owned settled .start .go
      ⟨s.toShared, .produce owned settled (.running s.frames.length),
        some ⟨c, .resolveOwned owned (.new owned) (.visiting b.sources)⟩⟩
  | produced {child : ℕ} {outcome : Except (Error K) (Dict K (ResolutionResult K V))}
      (ho : s.ownedOutcome child = some outcome) :
      ProduceMove b s c owned settled (.running child) .go
      ⟨s.toShared, .produce owned settled (.completing owned (produceOutcome owned outcome)), none⟩
  | complete {key : K} {rest : List K}
      {outcome : Except (Error K) (Dict K (ResolutionResult K V))} :
      ProduceMove b s c owned settled (.completing (key :: rest) outcome) .go
      ⟨{ s.toShared with tasks := s.tasks.erase key },
        .produce owned (settled.set key (completion outcome key)) (.completing rest outcome), none⟩
  | completed {outcome : Except (Error K) (Dict K (ResolutionResult K V))} :
      ProduceMove b s c owned settled (.completing [] outcome) .go
      ⟨s.toShared, .produce owned settled .done, none⟩

/-- The moves of `_refresh_resource`. -/
inductive RefreshMove (s : State K V) (c : Scope K) (key : K) :
    RefreshPhase K → Event K V → Step K V → Prop
  | reserve : RefreshMove s c key .reserving .go
      ⟨(s.reserve c [key]).2.1, .refresh key (.joining (s.reserve c [key]).1),
        (s.reserve c [key]).2.2⟩
  | joined {futures : List (K × ℕ)} {joined : Dict K (ResolutionResult K V)}
      (hj : s.joined futures = some joined) : RefreshMove s c key (.joining futures) .go
      ⟨s.toShared, .refresh key .done, none⟩
  | joinRaised {futures : List (K × ℕ)} {key' : K} {e : Error K}
      (hj : s.joinFailure futures key' = some e) :
      RefreshMove s c key (.joining futures) (.failed key')
      ⟨s.toShared, .refresh key .done, none⟩

/-- A move of a frame in scope `c`. -/
inductive Move (b : Builder K V) (s : State K V) (c : Scope K) :
    Body K V → Event K V → Step K V → Prop
  | many {keys : List K} {l : ManyLocals K V} {p : ManyPhase K V} {e : Event K V} {m : Step K V} :
      ManyMove b s c keys l p e m → Move b s c (.resolveMany keys l p) e m
  | owned {keys : List K} {l : OwnedLocals K V} {p : OwnedPhase K V} {e : Event K V}
      {m : Step K V} : OwnedMove b s c keys l p e m → Move b s c (.resolveOwned keys l p) e m
  | work {source : Source K} {keys : List K} {p : WorkPhase K V} {e : Event K V} {m : Step K V} :
      WorkMove b s c source keys p e m → Move b s c (.work source keys p) e m
  | produce {owned : List K} {settled : Dict K (Except (Error K) (ResolutionResult K V))}
      {p : ProducePhase K V} {e : Event K V} {m : Step K V} :
      ProduceMove b s c owned settled p e m → Move b s c (.produce owned settled p) e m
  | refresh {key : K} {p : RefreshPhase K} {e : Event K V} {m : Step K V} :
      RefreshMove s c key p e m → Move b s c (.refresh key p) e m

theorem moveMany_cases {b : Builder K V} {s : State K V} {c : Scope K} {keys : List K}
    {l : ManyLocals K V} {p : ManyPhase K V} {e : Event K V} {m : Step K V}
    (h : b.moveMany s c keys l p e = some m) : ManyMove b s c keys l p e m := by
  unfold Builder.moveMany at h
  split at h
  · cases h; exact .start
  · cases h; exact .read
  · cases h; exact .isolate
  · split at h
    · cases h; exact .served ‹_›
    · dsimp only at h
      split at h
      · cases h; exact .share ‹_›
      · cases h; exact .delegate ‹_›
  · dsimp only at h
    split at h
    · cases h; exact .miss
    · split at h
      · cases h; exact .hit ‹_› (.inl ⟨rfl, ‹_›⟩)
      · split at h
        · rename_i hf hu
          simp only [Bool.and_eq_true, decide_eq_true_eq] at hu
          cases h
          exact .hit ‹_› (.inr ⟨rfl, by simpa using hf, hu.1, hu.2⟩)
        · rename_i hf _
          split at h
          · cases h; exact .missStale ‹_› (by simpa using hf) ‹_›
          · cases h; exact .miss
  · cases h; exact .install
  · split at h
    · cases h; exact .delegated ‹_›
    · cases h; exact .delegateRaised ‹_›
    · cases h
  · cases h; exact .reserve
  · obtain ⟨j, hj, rfl⟩ := Option.map_eq_some_iff.mp h
    exact .joined hj
  · obtain ⟨err, hj, rfl⟩ := Option.map_eq_some_iff.mp h
    exact .joinRaised hj
  · cases h; exact .collected
  · split at h
    · cases h; exact .collectMissing ‹_›
    · cases h; exact .collectValue ‹_›
    · dsimp only at h
      split at h
      · cases h; exact .collectError ‹_›
      · split at h
        · cases h; exact .collectStale ‹_› ‹_›
        · cases h; exact .collectError ‹_›
  · cases h; exact .fallBack
  · split at h
    · cases h; exact .interrupt rfl ‹_›
    · cases h
  · split at h
    · cases h; exact .interrupt rfl ‹_›
    · cases h
  · split at h
    · cases h; exact .interrupt rfl ‹_›
    · cases h
  · split at h
    · cases h; exact .interrupt rfl ‹_›
    · cases h
  · cases h

theorem moveOwned_cases {b : Builder K V} {s : State K V} {c : Scope K} {keys : List K}
    {l : OwnedLocals K V} {p : OwnedPhase K V} {e : Event K V} {m : Step K V}
    (h : b.moveOwned s c keys l p e = some m) : OwnedMove b s c keys l p e m := by
  unfold Builder.moveOwned at h
  split at h
  · cases h; exact .exhausted
  · dsimp only at h
    split at h
    · cases h; exact .settled ‹_›
    · split at h
      · cases h; exact .skip rfl
      · cases h; exact .attempt rfl rfl
  · split at h
    · cases h; exact .dispatch
    · cases h
  · split at h
    · rename_i hc
      cases h
      exact .gather (List.all_eq_true.mp hc)
    · cases h
  · split at h
    · cases h; exact .harvestMissing ‹_›
    · rename_i ha
      split at h
      · cases h; exact .refuse ha ‹_›
      · cases h; exact .keep ha ‹_›
      · cases h; exact .accept ha ‹_›
  · split at h
    · cases h; exact .publish
    · cases h; exact .harvested
  · cases h; exact .write
  · cases h; exact .wrote
  · cases h; exact .superseded
  · cases h; exact .supersede
  · cases h; exact .installWinner
  · dsimp only at h
    split at h
    · cases h; exact .finishError
    · split at h
      · rename_i hb hr
        simp only [Bool.and_eq_true, Bool.not_eq_true'] at hr
        cases h
        exact .finishStale hb hr.2
      · cases h; exact .finishError
  · split at h
    · cases h; exact .publishStale
    · cases h; exact .finished
  · cases h; exact .writeStale
  · cases h; exact .wroteStale
  · split at h
    · cases h; exact .interrupt rfl ‹_›
    · cases h
  · split at h
    · cases h; exact .interrupt rfl ‹_›
    · cases h
  · split at h
    · cases h; exact .interrupt rfl ‹_›
    · cases h
  · split at h
    · cases h; exact .interrupt rfl ‹_›
    · cases h
  · split at h
    · cases h; exact .interrupt rfl ‹_›
    · cases h
  · cases h

theorem moveWork_cases {b : Builder K V} {s : State K V} {c : Scope K} {source : Source K}
    {keys : List K} {p : WorkPhase K V} {e : Event K V} {m : Step K V}
    (h : b.moveWork s c source keys p e = some m) : WorkMove b s c source keys p e m := by
  unfold Builder.moveWork at h
  split at h
  · dsimp only at h
    split at h
    · cases h
    · split at h
      · cases h; exact .refuse rfl ‹_›
      · split at h
        · cases h; exact .cycle rfl ‹_› ‹_›
        · cases h; exact .depend rfl ‹_› ‹_›
  · split at h
    · split at h
      · cases h; exact .resolved ‹_› ‹_›
      · cases h; exact .unresolved ‹_› ‹_›
    · cases h; exact .childRaised ‹_›
    · cases h
  · cases h; exact .isolated
  · split at h
    · cases h; exact .answerBatch ‹_›
    · rename_i hk
      split at h
      · cases h; exact .answer hk
      · cases h
  · split at h
    · cases h; exact .interrupt ‹_›
    · cases h
  · cases h; exact .fail
  · cases h

theorem moveProduce_cases {b : Builder K V} {s : State K V} {c : Scope K} {owned : List K}
    {settled : Dict K (Except (Error K) (ResolutionResult K V))} {p : ProducePhase K V}
    {e : Event K V} {m : Step K V} (h : b.moveProduce s c owned settled p e = some m) :
    ProduceMove b s c owned settled p e m := by
  unfold Builder.moveProduce at h
  split at h
  · cases h; exact .start
  · obtain ⟨outcome, ho, rfl⟩ := Option.map_eq_some_iff.mp h
    exact .produced ho
  · cases h; exact .complete
  · cases h; exact .completed
  · cases h

theorem moveRefresh_cases {s : State K V} {c : Scope K} {key : K} {p : RefreshPhase K}
    {e : Event K V} {m : Step K V} (h : Builder.moveRefresh s c key p e = some m) :
    RefreshMove s c key p e m := by
  unfold Builder.moveRefresh at h
  split at h
  · cases h; exact .reserve
  · obtain ⟨j, hj, rfl⟩ := Option.map_eq_some_iff.mp h
    exact .joined hj
  · obtain ⟨j, hj, rfl⟩ := Option.map_eq_some_iff.mp h
    exact .joinRaised hj
  · cases h

/-- There are no other moves. -/
theorem move_cases {b : Builder K V} {s : State K V} {f : Frame K V} {e : Event K V} {m : Step K V}
    (h : b.move s f e = some m) : Move b s f.scope f.body e m := by
  obtain ⟨c, body⟩ := f
  unfold Builder.move at h
  cases body with
  | resolveMany keys l p => exact .many (moveMany_cases h)
  | resolveOwned keys l p => exact .owned (moveOwned_cases h)
  | work source keys p => exact .work (moveWork_cases h)
  | produce owned settled p => exact .produce (moveProduce_cases h)
  | refresh key p => exact .refresh (moveRefresh_cases h)

/-- A frame that reserves keys has no other event. -/
theorem Move.go_of_reserving {b : Builder K V} {s : State K V} {c : Scope K} {body : Body K V}
    {e : Event K V} {m : Step K V} (h : Move b s c body e m) {k : K} (hk : k ∈ body.reserving) :
    e = .go := by
  cases h with
  | @many keys l p _ _ h =>
    cases p with
    | reserving shared =>
      cases h with
      | reserve => rfl
      | interrupt hp => cases hp
    | _ => cases hk
  | owned h => cases hk
  | work h => cases hk
  | produce h => cases hk
  | @refresh key p _ _ h =>
    cases p with
    | reserving =>
      cases h with
      | reserve => rfl
    | _ => cases hk

/-! ## Frames after a step -/

theorem lt_of_frame? {s : State K V} {i : ℕ} {f : Frame K V} (h : s.frame? i = some f) :
    i < s.frames.length := (List.getElem?_eq_some_iff.mp h).1

theorem frame?_apply {s : State K V} {i : ℕ} {f : Frame K V} (m : Step K V)
    (h : s.frame? i = some f) (j : ℕ) :
    (s.apply i f m).frame? j =
      if j = i then some { f with body := m.body }
      else if j = s.frames.length then m.spawn else s.frame? j := by
  have hi := lt_of_frame? h
  have hlen : (s.frames.set i { f with body := m.body }).length = s.frames.length :=
    List.length_set
  unfold State.frame? State.apply
  dsimp only
  rcases lt_trichotomy j s.frames.length with hj | hj | hj
  · rw [List.getElem?_append_left (by omega), List.getElem?_set,
      if_neg (show j ≠ s.frames.length by omega)]
    by_cases hji : j = i
    · subst hji
      simp [hj]
    · have hij : ¬ i = j := fun e => hji e.symm
      simp [hji, hij]
  · rw [List.getElem?_append_right (by omega), if_neg (show j ≠ i by omega), if_pos hj, hlen, hj]
    cases m.spawn <;> simp
  · have hnone : s.frames[j]? = none := List.getElem?_eq_none (by omega)
    rw [List.getElem?_append_right (by omega), if_neg (show j ≠ i by omega),
      if_neg (show j ≠ s.frames.length by omega), hnone, hlen, List.getElem?_eq_none]
    cases m.spawn with
    | none => exact Nat.zero_le _
    | some g =>
      have hone : (some g).toList.length = 1 := rfl
      omega

theorem frame?_apply_self {s : State K V} {i : ℕ} {f : Frame K V} (m : Step K V)
    (h : s.frame? i = some f) : (s.apply i f m).frame? i = some { f with body := m.body } := by
  rw [frame?_apply m h, if_pos rfl]

theorem frame?_apply_spawn {s : State K V} {i : ℕ} {f : Frame K V} (m : Step K V)
    (h : s.frame? i = some f) : (s.apply i f m).frame? s.frames.length = m.spawn := by
  rw [frame?_apply m h, if_neg (Nat.ne_of_gt (lt_of_frame? h)), if_pos rfl]

/-- A frame that does not move keeps its place. -/
theorem frame?_apply_other {s : State K V} {i j : ℕ} {f g : Frame K V} (m : Step K V)
    (h : s.frame? i = some f) (hj : s.frame? j = some g) (hne : j ≠ i) :
    (s.apply i f m).frame? j = some g := by
  rw [frame?_apply m h, if_neg hne, if_neg (Nat.ne_of_lt (lt_of_frame? hj)), hj]

theorem frame?_apply_cases {s : State K V} {i j : ℕ} {f g : Frame K V} {m : Step K V}
    (h : s.frame? i = some f) (hj : (s.apply i f m).frame? j = some g) :
    (j = i ∧ g = { f with body := m.body }) ∨ (j = s.frames.length ∧ m.spawn = some g) ∨
      (j ≠ i ∧ s.frame? j = some g) := by
  rw [frame?_apply m h] at hj
  by_cases h1 : j = i
  · rw [if_pos h1, Option.some.injEq] at hj
    exact .inl ⟨h1, hj.symm⟩
  · rw [if_neg h1] at hj
    by_cases h2 : j = s.frames.length
    · rw [if_pos h2] at hj
      exact .inr (.inl ⟨h2, hj⟩)
    · rw [if_neg h2] at hj
      exact .inr (.inr ⟨h1, hj⟩)

theorem step_run {b : Builder K V} {s t : State K V} {i : ℕ} {e : Event K V} :
    b.step s (.run i e) = some t ↔
      ∃ f m, s.frame? i = some f ∧ b.move s f e = some m ∧ t = s.apply i f m := by
  simp only [Builder.step, Option.bind_eq_some_iff, Option.map_eq_some_iff]
  constructor
  · rintro ⟨f, hf, m, hm, rfl⟩
    exact ⟨f, m, hf, hm, rfl⟩
  · rintro ⟨f, m, hf, hm, rfl⟩
    exact ⟨f, hf, m, hm, rfl⟩

/-- The frame of a session call. -/
def callFrame (runtime : ℕ) (deadline : Option ℚ) (keys : List K) : Frame K V :=
  ⟨⟨deadline, runtime, [], [], none⟩, .resolveMany (Dict.fromKeys keys) .new .start⟩

/-- What a step does, by its label. -/
inductive Stepped (b : Builder K V) (s : State K V) : Label K V → State K V → Prop
  | run {i : ℕ} {e : Event K V} {f : Frame K V} {m : Step K V} (hf : s.frame? i = some f)
      (hm : Move b s f.scope f.body e m) : Stepped b s (.run i e) (s.apply i f m)
  | tick {now : ℚ} : Stepped b s (.tick now) { s with now }
  | openRuntime {r : ResolutionRuntime K V}
      (hr : ∀ key ∈ r.forceRefreshKeys, r.memo.get? key = none) :
      Stepped b s (.openRuntime r) { s with runtimes := s.runtimes ++ [r] }
  | call {runtime : ℕ} {deadline : Option ℚ} {keys : List K} (hr : runtime < s.runtimes.length) :
      Stepped b s (.call runtime deadline keys)
        { s with frames := s.frames ++ [callFrame runtime deadline keys] }
  | external {cache : AsyncMemoryCache K V} : Stepped b s (.external cache) { s with cache }

theorem step_cases {b : Builder K V} {s t : State K V} {l : Label K V}
    (h : b.step s l = some t) : Stepped b s l t := by
  cases l with
  | run i e =>
    obtain ⟨f, m, hf, hm, rfl⟩ := step_run.mp h
    exact .run hf (move_cases hm)
  | tick now => cases h; exact .tick
  | openRuntime r =>
    rw [Builder.step] at h
    split at h
    · rename_i hr
      cases h
      exact .openRuntime fun key hk => by simpa using List.all_eq_true.mp hr key hk
    · cases h
  | call runtime deadline keys =>
    rw [Builder.step] at h
    split at h
    · rename_i hr
      cases h
      exact .call hr
    · cases h
  | external cache => cases h; exact .external

theorem frame?_append_cases {s : State K V} {g : Frame K V} {j : ℕ} {f : Frame K V}
    (h : State.frame? { s with frames := s.frames ++ [g] } j = some f) :
    s.frame? j = some f ∨ (j = s.frames.length ∧ f = g) := by
  unfold State.frame? at h ⊢
  dsimp only at h
  rcases lt_trichotomy j s.frames.length with hj | hj | hj
  · rw [List.getElem?_append_left hj] at h
    exact .inl h
  · subst hj
    simp only [List.getElem?_concat_length, Option.some.injEq] at h
    exact .inr ⟨rfl, h.symm⟩
  · rw [List.getElem?_eq_none (by rw [List.length_append, List.length_singleton]; omega)] at h
    cases h

theorem frame?_append {s : State K V} {g f : Frame K V} {j : ℕ} (h : s.frame? j = some f) :
    State.frame? { s with frames := s.frames ++ [g] } j = some f := by
  have hlt := lt_of_frame? h
  unfold State.frame? at h ⊢
  dsimp only
  rw [List.getElem?_append_left hlt, h]

/-- Where a frame of the next state comes from: it has moved, a move or a call has started it, or it
has stood still. -/
inductive Came (b : Builder K V) (s t : State K V) (i : ℕ) (f : Frame K V) : Label K V → Prop
  | moved {e : Event K V} {g : Frame K V} {m : Step K V} (hg : s.frame? i = some g)
      (hm : Move b s g.scope g.body e m) (ht : t = s.apply i g m)
      (hf : f = { g with body := m.body }) : Came b s t i f (.run i e)
  | started {j : ℕ} {e : Event K V} {g : Frame K V} {m : Step K V} (hg : s.frame? j = some g)
      (hm : Move b s g.scope g.body e m) (ht : t = s.apply j g m) (hi : i = s.frames.length)
      (hf : m.spawn = some f) : Came b s t i f (.run j e)
  | called {runtime : ℕ} {deadline : Option ℚ} {keys : List K} (hi : i = s.frames.length)
      (hf : f = callFrame runtime deadline keys) : Came b s t i f (.call runtime deadline keys)
  | stayed {l : Label K V} (hl : ∀ e, l ≠ .run i e) (hf : s.frame? i = some f) : Came b s t i f l

theorem Stepped.came {b : Builder K V} {s t : State K V} {l : Label K V} (h : Stepped b s l t) {i : ℕ} {f : Frame K V}
    (hi : t.frame? i = some f) : Came b s t i f l := by
  cases h with
  | @run j e g m hg hm =>
    rcases frame?_apply_cases hg hi with ⟨rfl, hf⟩ | ⟨hi, hf⟩ | ⟨hne, hf⟩
    · exact .moved hg hm rfl hf
    · exact .started hg hm rfl hi hf
    · refine .stayed (fun e' he => ?_) hf
      rw [Label.run.injEq] at he
      exact hne he.1.symm
  | call =>
    rcases frame?_append_cases hi with hf | ⟨hi, hf⟩
    · exact .stayed nofun hf
    · exact .called hi hf
  | tick => exact .stayed nofun hi
  | openRuntime => exact .stayed nofun hi
  | external => exact .stayed nofun hi

/-- What holds of every frame is kept: the moved frame, the started ones and the others. -/
theorem Stepped.frames {b : Builder K V} {s t : State K V} {l : Label K V} (h : Stepped b s l t)
    {P Q : ℕ → Frame K V → Prop} (hP : ∀ j f, s.frame? j = some f → P j f)
    (hkeep : ∀ j f, P j f → Q j f)
    (hmove : ∀ i e f m, l = .run i e → t = s.apply i f m → s.frame? i = some f →
      Move b s f.scope f.body e m → P i f →
      Q i { f with body := m.body } ∧ ∀ g, m.spawn = some g → Q s.frames.length g)
    (hcall : ∀ r d ks, l = .call r d ks → Q s.frames.length (callFrame r d ks)) :
    ∀ j f, t.frame? j = some f → Q j f := by
  intro j g hj
  cases h with
  | @run i e f m hf hm =>
    have hq := hmove i e f m rfl rfl hf hm (hP i f hf)
    rcases frame?_apply_cases hf hj with ⟨rfl, rfl⟩ | ⟨rfl, hg⟩ | ⟨_, hg⟩
    · exact hq.1
    · exact hq.2 g hg
    · exact hkeep j g (hP j g hg)
  | tick => exact hkeep j g (hP j g hj)
  | openRuntime => exact hkeep j g (hP j g hj)
  | call =>
    rcases frame?_append_cases hj with hg | ⟨rfl, rfl⟩
    · exact hkeep j g (hP j g hg)
    · exact hcall _ _ _ rfl
  | external => exact hkeep j g (hP j g hj)

end
end Coalestra
