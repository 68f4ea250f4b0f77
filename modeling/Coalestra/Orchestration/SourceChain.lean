import Mathlib.Data.List.MinMax
import Coalestra.Orchestration.Completeness

/-! # The source chain

What `_resolve_owned_keys` gives one key depends on that key alone: the sources in their order, the
ones excluded for it and the answers it gets. `Builder.chain` says so as a function of one key, and
`ChainHolds` is what every point of the loop has of it, whatever the other keys of the batch do. -/

namespace Coalestra
set_option autoImplicit false
set_option maxHeartbeats 250000

section
variable {K V : Type} [DecidableEq K]

/-! ## One key -/

/-- `SourceCatalog.__init__`: the sources in falling priority, ties in the order given. -/
def catalogOrder (given : List (Source K)) : List (Source K) :=
  given.mergeSort fun a b => decide (b.priority ≤ a.priority)

/-- What the loop learns about one key: the time, the sources excluded for it and the answers. -/
structure Inquiry (K V : Type) where
  key : K
  now : ℚ
  excluded : String → Bool
  answer : Source K → SourceAttempt K V

def SnapshotValue.unversioned (v : SnapshotValue K V) : SnapshotValue K V := { v with version := 0 }

/-- A result but for the version handed out to it. -/
def unversionedResult : ResolutionResult K V → ResolutionResult K V := Except.map (·.unversioned)

namespace Builder
variable (b : Builder K V) (q : Inquiry K V)

/-- What `source` amounts to for the key, if it is consulted at all. -/
def turn (source : Source K) : Option (Harvest K V) :=
  if q.excluded source.name then none
  else match source.supports q.key with
    | .error fault => some (.refused ((fault.error : Error K).sourceFailure source.name))
    | .ok false => none
    | .ok true => some (b.harvest q.now 0 source q.key (q.answer source))

def freshFrom (source : Source K) : Option (SnapshotValue K V) :=
  match b.turn q source with
  | some (.fresh v _) => some v
  | _ => none

/-- A stale answer that the key's policy still tolerates. -/
def staleFrom (source : Source K) : Option (SnapshotValue K V) :=
  match b.turn q source with
  | some (.stale v _) =>
    if (v.ageSeconds : WithTop ℚ) ≤ (b.policyFor q.key).maxStaleSeconds then some v else none
  | _ => none

def failureFrom (source : Source K) : Option SourceFailure :=
  match b.turn q source with
  | some (.refused f) => some f
  | some (.stale _ _) => some ⟨source.name, "StaleSourceData"⟩
  | _ => none

/-- The first fresh answer; else the newest tolerated stale one, where stale values are allowed; else
the failures in order. -/
def chain (allowed : Bool) (sources : List (Source K)) : ResolutionResult K V :=
  match sources.findSome? (b.freshFrom q) with
  | some v => .ok v
  | none =>
    match if allowed then (sources.filterMap (b.staleFrom q)).argmax SnapshotValue.observedAt
      else none with
    | some v => .ok v
    | none => .error (.resourceResolution q.key (sources.filterMap (b.failureFrom q)))

end Builder

variable {b : Builder K V} {q : Inquiry K V}

omit [DecidableEq K] in
theorem failureFrom_source {source : Source K} {f : SourceFailure}
    (h : b.failureFrom q source = some f) : f.source = source.name := by
  unfold Builder.failureFrom at h
  split at h
  · rename_i f' hturn
    rw [Option.some.injEq] at h
    subst h
    unfold Builder.turn at hturn
    split at hturn
    · cases hturn
    · split at hturn
      · cases hturn
        rfl
      · cases hturn
      · rw [Option.some.injEq] at hturn
        cases ha : q.answer source with
        | failed err =>
          rw [ha] at hturn
          cases hturn
          rfl
        | succeeded payload versions =>
          rw [ha, Builder.harvest] at hturn
          split at hturn
          · dsimp only at hturn
            split at hturn <;> cases hturn
          · cases hturn
            rfl
  · cases h
    rfl
  · cases h

omit [DecidableEq K] in
/-- Where no answer is fresh, the failures are one for each source consulted, in order. -/
theorem failures_one_each : ∀ {sources : List (Source K)},
    sources.findSome? (b.freshFrom q) = none →
    (sources.filterMap (b.failureFrom q)).map SourceFailure.source =
      (sources.filter fun source => (b.turn q source).isSome).map Source.name
  | [], _ => rfl
  | source :: sources, h => by
      rw [List.findSome?_cons] at h
      have hrest : sources.findSome? (b.freshFrom q) = none := by
        split at h
        · cases h
        · exact h
      have hhead : b.freshFrom q source = none := by
        split at h
        · cases h
        · assumption
      have ih := failures_one_each hrest
      cases hfail : b.failureFrom q source with
      | some f =>
        have hsome : (b.turn q source).isSome = true := by
          unfold Builder.failureFrom at hfail
          cases hturn : b.turn q source with
          | none => rw [hturn] at hfail; cases hfail
          | some t => rfl
        rw [List.filterMap_cons_some hfail, List.filter_cons, if_pos hsome, List.map_cons,
          List.map_cons, ih, failureFrom_source hfail]
      | none =>
        have hnone : b.turn q source = none := by
          unfold Builder.failureFrom at hfail
          unfold Builder.freshFrom at hhead
          cases hturn : b.turn q source with
          | none => rfl
          | some t =>
            rw [hturn] at hfail hhead
            cases t <;> simp at hfail hhead
        rw [List.filterMap_cons_none hfail, List.filter_cons, if_neg (by simp [hnone]), ih]

omit [DecidableEq K] in
/-- A chain fails only with all the failures of its sources. -/
theorem chain_error {allowed : Bool} {sources : List (Source K)} {failures : List SourceFailure}
    (h : b.chain q allowed sources = .error (.resourceResolution q.key failures)) :
    sources.findSome? (b.freshFrom q) = none ∧
      failures = sources.filterMap (b.failureFrom q) := by
  unfold Builder.chain at h
  split at h
  · cases h
  · refine ⟨‹_›, ?_⟩
    split at h
    · cases h
    · rw [Except.error.injEq, Error.resourceResolution.injEq] at h
      exact h.2.symm

/-! ## One harvest -/

omit [DecidableEq K] in
/-- The version of a harvested value is the one number that the answer does not decide. -/
theorem harvest_versioned (now : ℚ) (n : ℕ) (source : Source K) (key : K) (a : SourceAttempt K V) :
    (∃ f, b.harvest now n source key a = .refused f ∧ b.harvest now 0 source key a = .refused f) ∨
    (∃ v d, b.harvest now n source key a = .stale v d ∧
      b.harvest now 0 source key a = .stale v.unversioned d) ∨
    ∃ v d, b.harvest now n source key a = .fresh v d ∧
      b.harvest now 0 source key a = .fresh v.unversioned d := by
  cases a with
  | failed err => exact .inl ⟨_, rfl, rfl⟩
  | succeeded payload versions =>
    unfold Builder.harvest
    dsimp only
    split
    · by_cases hstale : (b.snapshotValue now n key source payload versions).stale = true
      · rw [if_pos hstale, if_pos (show (b.snapshotValue now 0 key source payload versions).stale
          = true from hstale)]
        exact .inr (.inl ⟨_, _, rfl, rfl⟩)
      · rw [if_neg hstale, if_neg (show ¬ (b.snapshotValue now 0 key source payload versions).stale
          = true from hstale)]
        exact .inr (.inr ⟨_, _, rfl, rfl⟩)
    · exact .inl ⟨_, rfl, rfl⟩

/-! ## Where a key stands -/

/-- The key has no result after the sources `seen`, and the loop holds what they answered. -/
structure Standing (b : Builder K V) (q : Inquiry K V) (l : OwnedLocals K V)
    (seen : List (Source K)) : Prop where
  unresolved : l.resolved.get? q.key = none
  fresh : seen.findSome? (b.freshFrom q) = none
  failures : (l.failures.get? q.key).getD [] = seen.filterMap (b.failureFrom q)
  best : (l.bestStale.get? q.key).map (·.unversioned) =
    (seen.filterMap (b.staleFrom q)).argmax SnapshotValue.observedAt

/-- The key has the result of its chain, unless the memo of the session decided it meanwhile. -/
def ChainAnswered (b : Builder K V) (q : Inquiry K V) (allowed : Bool) (memo : SnapshotValue K V → Prop)
    (l : OwnedLocals K V) : Prop :=
  ∃ r, l.resolved.get? q.key = some r ∧ (unversionedResult r = b.chain q allowed b.sources ∨
    ∃ v, memo v ∧ (r = .ok v ∨
      unversionedResult r = b.chain q (b.policyFor q.key).allowStaleOnError b.sources))

/-- The loop holds the same of the key. -/
structure SameAt (k : K) (l l' : OwnedLocals K V) : Prop where
  resolved : l'.resolved.get? k = l.resolved.get? k
  failures : (l'.failures.get? k).getD [] = (l.failures.get? k).getD []
  best : l'.bestStale.get? k = l.bestStale.get? k

variable {l l' : OwnedLocals K V} {seen rest : List (Source K)} {source : Source K} {allowed : Bool}
  {memo : SnapshotValue K V → Prop}

theorem Standing.same (h : Standing b q l seen) (hs : SameAt q.key l l') : Standing b q l' seen :=
  ⟨hs.resolved.trans h.unresolved, h.fresh, hs.failures.trans h.failures, by rw [hs.best, h.best]⟩

theorem ChainAnswered.same (h : ChainAnswered b q allowed memo l) (hs : SameAt q.key l l') :
    ChainAnswered b q allowed memo l' := by
  unfold ChainAnswered
  rw [hs.resolved]
  exact h

/-- A source that is not consulted changes nothing. -/
theorem Standing.skip (h : Standing b q l seen) (ht : b.turn q source = none) :
    Standing b q l (seen ++ [source]) := by
  have hfresh : b.freshFrom q source = none := by rw [Builder.freshFrom, ht]
  have hfail : b.failureFrom q source = none := by rw [Builder.failureFrom, ht]
  have hstale : b.staleFrom q source = none := by rw [Builder.staleFrom, ht]
  refine ⟨h.unresolved, ?_, ?_, ?_⟩
  · simp [List.findSome?_append, h.fresh, hfresh]
  · simp [List.filterMap_append, h.failures, hfail]
  · simp [List.filterMap_append, h.best, hstale]

/-- A failure joins the list. -/
theorem Standing.refuse (h : Standing b q l seen) {f : SourceFailure}
    (ht : b.turn q source = some (.refused f)) (hr : l'.resolved.get? q.key = l.resolved.get? q.key)
    (hf : (l'.failures.get? q.key).getD [] = (l.failures.get? q.key).getD [] ++ [f])
    (hb : l'.bestStale.get? q.key = l.bestStale.get? q.key) :
    Standing b q l' (seen ++ [source]) := by
  have hfresh : b.freshFrom q source = none := by rw [Builder.freshFrom, ht]
  have hfail : b.failureFrom q source = some f := by rw [Builder.failureFrom, ht]
  have hstale : b.staleFrom q source = none := by rw [Builder.staleFrom, ht]
  refine ⟨hr.trans h.unresolved, ?_, ?_, ?_⟩
  · simp [List.findSome?_append, h.fresh, hfresh]
  · rw [hf, h.failures]
    simp [List.filterMap_append, hfail]
  · rw [hb, h.best]
    simp [List.filterMap_append, hstale]

theorem resolved_fail (l : OwnedLocals K V) (key : K) (failure : SourceFailure) :
    (l.fail key failure).resolved = l.resolved := rfl

theorem bestStale_fail (l : OwnedLocals K V) (key : K) (failure : SourceFailure) :
    (l.fail key failure).bestStale = l.bestStale := rfl

theorem failures_fail (l : OwnedLocals K V) (key k : K) (failure : SourceFailure) :
    ((l.fail key failure).failures.get? k).getD [] =
      (l.failures.get? k).getD [] ++ (if k = key then [failure] else []) := by
  unfold OwnedLocals.fail
  rw [Dict.get?_set]
  split
  · rename_i hk
    rw [hk]
    rfl
  · rw [List.append_nil]

theorem failures_keepStale (l : OwnedLocals K V) (key : K) (value : SnapshotValue K V) :
    (b.keepStale l key value).failures = l.failures := by
  unfold Builder.keepStale
  split <;> rfl

/-- What `keepStale` keeps for the key is the newest tolerated answer so far. -/
theorem bestStale_keepStale (l : OwnedLocals K V) (key : K) (value : SnapshotValue K V) :
    (b.keepStale l key value).bestStale.get? key =
      if (value.ageSeconds : WithTop ℚ) ≤ (b.policyFor key).maxStaleSeconds then
        match l.bestStale.get? key with
        | none => some value
        | some best => if best.observedAt < value.observedAt then some value else some best
      else l.bestStale.get? key := by
  unfold Builder.keepStale
  by_cases hage : (value.ageSeconds : WithTop ℚ) ≤ (b.policyFor key).maxStaleSeconds
  · cases hbest : l.bestStale.get? key with
    | none => simp [hage]
    | some best =>
      by_cases hnew : best.observedAt < value.observedAt
      · simp [hage, hnew]
      · simp [hage, hnew, hbest]
  · simp [hage]

/-- A stale answer is kept when it is the newest tolerated one so far, and joins the failures. -/
theorem Standing.keep (h : Standing b q l seen) {v : SnapshotValue K V} {versions : Dict K ℕ}
    (ht : b.turn q source = some (.stale v.unversioned versions)) :
    Standing b q ((b.keepStale l q.key v).fail q.key ⟨source.name, "StaleSourceData"⟩)
      (seen ++ [source]) := by
  have hfresh : b.freshFrom q source = none := by rw [Builder.freshFrom, ht]
  have hfail : b.failureFrom q source = some ⟨source.name, "StaleSourceData"⟩ := by
    rw [Builder.failureFrom, ht]
  have hstale : b.staleFrom q source =
      if (v.ageSeconds : WithTop ℚ) ≤ (b.policyFor q.key).maxStaleSeconds then some v.unversioned
      else none := by
    rw [Builder.staleFrom, ht]
    rfl
  refine ⟨?_, ?_, ?_, ?_⟩
  · rw [resolved_fail, resolved_keepStale]
    exact h.unresolved
  · simp [List.findSome?_append, h.fresh, hfresh]
  · rw [failures_fail, failures_keepStale, if_pos rfl, h.failures]
    simp [List.filterMap_append, hfail]
  · rw [bestStale_fail, bestStale_keepStale, List.filterMap_append]
    by_cases hage : (v.ageSeconds : WithTop ℚ) ≤ (b.policyFor q.key).maxStaleSeconds
    · rw [if_pos hage, List.filterMap_cons_some (by rw [hstale, if_pos hage]), List.filterMap_nil,
        List.argmax_concat, ← h.best]
      cases hbest : l.bestStale.get? q.key with
      | none => rfl
      | some best =>
        by_cases hnew : best.observedAt < v.observedAt
        · simp [SnapshotValue.unversioned, hnew]
        · simp [SnapshotValue.unversioned, hnew]
    · rw [if_neg hage, List.filterMap_cons_none (by rw [hstale, if_neg hage]), List.filterMap_nil,
        List.append_nil]
      exact h.best

/-- The first fresh answer decides. -/
theorem Standing.accept (h : Standing b q l seen) (hsplit : b.sources = seen ++ source :: rest)
    {v : SnapshotValue K V} {versions : Dict K ℕ}
    (ht : b.turn q source = some (.fresh v.unversioned versions))
    (hr : l'.resolved.get? q.key = some (.ok v)) : ChainAnswered b q allowed memo l' := by
  have hfresh : b.freshFrom q source = some v.unversioned := by rw [Builder.freshFrom, ht]
  refine ⟨_, hr, .inl ?_⟩
  unfold Builder.chain
  rw [hsplit, List.findSome?_append, h.fresh, List.findSome?_cons, hfresh]
  rfl

/-- Without a fresh answer the key falls back to the newest tolerated stale one, or fails. -/
theorem Standing.finish (h : Standing b q l b.sources) (allowed : Bool) :
    unversionedResult (match if allowed then l.bestStale.get? q.key else none with
        | some stale => .ok stale
        | none => .error (.resourceResolution q.key ((l.failures.get? q.key).getD []))) =
      b.chain q allowed b.sources := by
  unfold Builder.chain
  rw [h.fresh, ← h.best, h.failures]
  cases allowed with
  | false => rfl
  | true =>
    cases l.bestStale.get? q.key with
    | none => rfl
    | some stale => rfl

/-! ## Every point of the loop -/

/-- The sources that the key may still be asked of. -/
def OwnedPhase.ahead (k : K) : OwnedPhase K V → List (Source K)
  | .visiting sources | .writing sources _ | .written sources _ | .superseding sources _
  | .copyingWinner sources _ _ _ => sources
  | .attempting source sources chosen _ _ => if k ∈ chosen then source :: sources else sources
  | .harvesting source sources _ rest _ => if k ∈ rest then source :: sources else sources
  | _ => []

/-- The keys that this pass of the loop has not dealt with. -/
def OwnedPhase.turns (l : OwnedLocals K V) : OwnedPhase K V → List K
  | .visiting _ => l.unresolved
  | .attempting _ _ chosen _ _ => chosen
  | .harvesting _ _ _ rest _ => rest
  | .finishing rest _ => rest
  | _ => []

/-- The source that is being asked. -/
def OwnedPhase.asking : OwnedPhase K V → Option (Source K)
  | .attempting source _ _ _ _ | .harvesting source _ _ _ _ => some source
  | _ => none

/-- The fresh values on their way into the cache. -/
def OwnedPhase.accepted : OwnedPhase K V → List (SnapshotValue K V)
  | .harvesting _ _ _ _ fresh | .writing _ fresh => fresh
  | _ => []

/-- The keys whose fresh value a cached one supersedes. -/
def OwnedPhase.beaten : OwnedPhase K V → List K
  | .written _ winners | .superseding _ winners => winners.map Prod.fst
  | .copyingWinner _ key _ rest => key :: rest.map Prod.fst
  | _ => []

/-- What every point of the loop has of the key. -/
structure ChainHolds (b : Builder K V) (q : Inquiry K V) (allowed : Bool)
    (memo : SnapshotValue K V → Prop) (rank : ℤ) (l : OwnedLocals K V) (p : OwnedPhase K V) :
    Prop where
  distinct : l.unresolved.Nodup
  turns : (p.turns l).Nodup
  waiting : q.key ∈ p.turns l → l.resolved.get? q.key = none
  asked : ∀ source, p.asking = some source → q.key ∈ p.turns l →
    q.excluded source.name = false ∧ source.supports q.key = .ok true
  ranks : ∀ v ∈ p.accepted, v.key = q.key → v.authorityRank = rank
  beaten : q.key ∉ p.beaten
  progress : (∃ seen, b.sources = seen ++ p.ahead q.key ∧ q.key ∈ p.unsettled l ∧
    Standing b q l seen) ∨ ChainAnswered b q allowed memo l

/-- A loop that starts has asked nothing. -/
theorem chainHolds_new {memo : SnapshotValue K V → Prop} {rank : ℤ} {keys : List K}
    (hnodup : keys.Nodup) (hk : q.key ∈ keys) :
    ChainHolds b q allowed memo rank (.new keys) (.visiting b.sources) where
  distinct := hnodup
  turns := hnodup
  waiting _ := rfl
  asked source hs := by cases hs
  ranks v hv := by cases hv
  beaten h := by cases h
  progress := .inl ⟨[], rfl, hk, rfl, rfl, rfl, rfl⟩

section
variable {memo : SnapshotValue K V → Prop} {rank : ℤ} {p : OwnedPhase K V}

/-- A point at which no source is asked and nothing is on its way. -/
theorem ChainHolds.unasked (hd : l.unresolved.Nodup) (ht : (p.turns l).Nodup)
    (hw : q.key ∈ p.turns l → l.resolved.get? q.key = none) (ha : p.asking = none)
    (hf : p.accepted = []) (hb : p.beaten = [])
    (hp : (∃ seen, b.sources = seen ++ p.ahead q.key ∧ q.key ∈ p.unsettled l ∧
      Standing b q l seen) ∨ ChainAnswered b q allowed memo l) :
    ChainHolds b q allowed memo rank l p := by
  refine ⟨hd, ht, hw, ?_, ?_, ?_, hp⟩
  · intro source hsource
    rw [ha] at hsource
    cases hsource
  · intro v hv
    rw [hf] at hv
    cases hv
  · rw [hb]
    exact List.not_mem_nil

/-- A point between two passes, where fresh values are on their way or winners are stored. -/
theorem ChainHolds.between (hd : l.unresolved.Nodup) (ht : p.turns l = []) (ha : p.asking = none)
    (hf : ∀ v ∈ p.accepted, v.key = q.key → v.authorityRank = rank) (hb : q.key ∉ p.beaten)
    (hp : (∃ seen, b.sources = seen ++ p.ahead q.key ∧ q.key ∈ p.unsettled l ∧
      Standing b q l seen) ∨ ChainAnswered b q allowed memo l) :
    ChainHolds b q allowed memo rank l p := by
  refine ⟨hd, ?_, ?_, ?_, hf, hb, hp⟩
  · rw [ht]
    exact List.nodup_nil
  · intro hk
    rw [ht] at hk
    cases hk
  · intro source hsource
    rw [ha] at hsource
    cases hsource

/-- A point between two passes without fresh values. -/
theorem ChainHolds.passing (hd : l.unresolved.Nodup) (ht : p.turns l = []) (ha : p.asking = none)
    (hf : p.accepted = []) (hb : q.key ∉ p.beaten)
    (hp : (∃ seen, b.sources = seen ++ p.ahead q.key ∧ q.key ∈ p.unsettled l ∧
      Standing b q l seen) ∨ ChainAnswered b q allowed memo l) :
    ChainHolds b q allowed memo rank l p := by
  refine .between hd ht ha ?_ hb hp
  intro v hv
  rw [hf] at hv
  cases hv

end

/-- What the surroundings of the loop owe the key: the clock stands still, `memo` holds of what the
session has for the key, the sources answer as the inquiry says, and no cached value has a higher
rank. -/
structure Sees (q : Inquiry K V) (forced : Bool) (memo : SnapshotValue K V → Prop) (rank : ℤ)
    (s : State K V) (c : Scope K) (l : OwnedLocals K V) (p : OwnedPhase K V) : Prop where
  now : s.now = q.now
  excluded : ∀ name, (s.runtime c.runtime).sourceIsExcluded q.key name = q.excluded name
  decided : ∀ sources v, p = .visiting sources → q.key ∈ l.unresolved →
    (s.runtime c.runtime).pinned q.key = some v → memo v
  answers : ∀ source sources attempts rest fresh a,
    p = .harvesting source sources attempts (q.key :: rest) fresh →
      Dict.find attempts q.key = some a → a = q.answer source
  forced : ∀ rest stales, p = .finishing (q.key :: rest) stales →
    (s.runtime c.runtime).requiresRefresh q.key = forced ∨
      (s.runtime c.runtime).requiresRefresh q.key = false ∧ ∃ v, memo v
  ranks : ∀ w, s.cache.get? q.key = some w → w.authorityRank ≤ rank

variable {s t : State K V} {c : Scope K} {e : Event K V} {m : Step K V} {keys : List K}
  {p : OwnedPhase K V} {forced : Bool} {rank : ℤ} {sources : List (Source K)}

/-! ## Visits -/

/-- One turn of the source loop, with the tests that the list of moves leaves out. -/
theorem moveOwned_visiting (h : b.moveOwned s c keys l (.visiting (source :: sources)) .go = some m) :
    let l₁ := Builder.visit (s.runtime c.runtime) l
    let considered := consideredKeys (s.runtime c.runtime) source l₁
    let chosen := Builder.candidates source considered
    (l₁.unresolved = [] ∧ m.body = .resolveOwned keys l₁ (.finishing [] [])) ∨
    (chosen = [] ∧ m.body =
      .resolveOwned keys (Builder.consider source l₁ considered) (.visiting sources)) ∨
    m.body = .resolveOwned keys (Builder.consider source l₁ considered)
      (.attempting source sources chosen (source.items chosen) []) := by
  intro l₁ considered chosen
  unfold Builder.moveOwned at h
  dsimp only at h
  split at h
  · cases h
    exact .inl ⟨‹_›, rfl⟩
  · split at h
    · cases h
      exact .inr (.inl ⟨‹_›, rfl⟩)
    · cases h
      exact .inr (.inr rfl)

/-- A visit that finds no value of the key leaves what the loop holds of it. -/
theorem visit_same {r : ResolutionRuntime K V} {k : K}
    (h : k ∈ l.unresolved → r.pinned k = none) : SameAt k l (Builder.visit r l) := by
  refine ⟨?_, rfl, rfl⟩
  unfold Builder.visit
  dsimp only
  rw [Dict.get?_update, Dict.get?_comprehend]
  split
  · rename_i hk
    rw [h hk]
    rfl
  · rfl

/-- A visit that finds a value of the key takes it. -/
theorem visit_pinned {r : ResolutionRuntime K V} {k : K} {v : SnapshotValue K V}
    (hk : k ∈ l.unresolved) (h : r.pinned k = some v) :
    (Builder.visit r l).resolved.get? k = some (.ok v) := by
  unfold Builder.visit
  dsimp only
  rw [Dict.get?_update, Dict.get?_comprehend, if_pos hk, h]
  rfl

/-- What the `supports` checks of one turn add to the failures of a key. -/
def supportFailures (source : Source K) (k : K) : List SourceFailure :=
  match source.supports k with
  | .error fault => [(fault.error : Error K).sourceFailure source.name]
  | .ok _ => []

theorem failures_consider (source : Source K) (k : K) : ∀ (ks : List K) (l : OwnedLocals K V),
    ks.Nodup → ((Builder.consider source l ks).failures.get? k).getD [] =
      (l.failures.get? k).getD [] ++ (if k ∈ ks then supportFailures source k else [])
  | [], l, _ => by simp [Builder.consider]
  | key :: ks, l, hn => by
      rw [List.nodup_cons] at hn
      have ih := failures_consider source k ks
        (match source.supports key with
          | .error fault => l.fail key ((fault.error : Error K).sourceFailure source.name)
          | .ok _ => l) hn.2
      have hcons : Builder.consider source l (key :: ks) = Builder.consider source
          (match source.supports key with
            | .error fault => l.fail key ((fault.error : Error K).sourceFailure source.name)
            | .ok _ => l) ks := rfl
      rw [hcons, ih]
      by_cases hk : k = key
      · subst hk
        rw [if_neg hn.1, if_pos List.mem_cons_self, List.append_nil]
        unfold supportFailures
        cases source.supports k with
        | error fault => rw [failures_fail, if_pos rfl]
        | ok supported => rw [List.append_nil]
      · simp only [List.mem_cons, hk, false_or]
        cases source.supports key with
        | error fault => rw [failures_fail, if_neg hk, List.append_nil]
        | ok supported => rfl

theorem bestStale_consider (source : Source K) (ks : List K) (l : OwnedLocals K V) :
    (Builder.consider source l ks).bestStale = l.bestStale := by
  unfold Builder.consider
  induction ks generalizing l with
  | nil => rfl
  | cons key ks ih =>
    rw [List.foldl_cons, ih]
    split <;> rfl

/-- One turn consults the source for a key that stands, and leaves an answered one alone. -/
theorem consider_progress {r : ResolutionRuntime K V} {l₁ : OwnedLocals K V}
    (hr : ∀ name, r.sourceIsExcluded q.key name = q.excluded name) (hn : l₁.unresolved.Nodup)
    (hsplit : b.sources = seen ++ source :: sources) (hk : q.key ∈ l₁.unresolved)
    (hstand : Standing b q l₁ seen) :
    ∃ seen', b.sources = seen' ++
        (if q.key ∈ Builder.candidates source (consideredKeys r source l₁) then source :: sources
          else sources) ∧
      Standing b q (Builder.consider source l₁ (consideredKeys r source l₁)) seen' := by
  have hfails := failures_consider source q.key (consideredKeys r source l₁) l₁ (hn.filter _)
  have hres := congrArg (fun d => d.get? q.key)
    (resolved_consider source (consideredKeys r source l₁) l₁)
  have hbest := congrArg (fun d => d.get? q.key)
    (bestStale_consider source (consideredKeys r source l₁) l₁)
  have hmem : q.key ∈ consideredKeys r source l₁ ↔ q.excluded source.name = false := by
    rw [consideredKeys, List.mem_filter, hr]
    simp [hk]
  have hnext : b.sources = (seen ++ [source]) ++ sources := by rw [hsplit, List.append_assoc]; rfl
  by_cases hex : q.excluded source.name = true
  · -- the source is excluded for the key
    have hnot : q.key ∉ consideredKeys r source l₁ := by rw [hmem, hex]; decide
    refine ⟨seen ++ [source], ?_, ?_⟩
    · rw [if_neg fun h => hnot (mem_candidates.mp h).1]
      exact hnext
    · refine (hstand.same ⟨hres, ?_, hbest⟩).skip (by rw [Builder.turn, if_pos hex])
      rw [hfails, if_neg hnot, List.append_nil]
  · have hin : q.key ∈ consideredKeys r source l₁ := by
      rw [hmem]
      simpa using hex
    rw [if_pos hin, supportFailures] at hfails
    cases hsup : source.supports q.key with
    | error fault =>
      rw [hsup] at hfails
      refine ⟨seen ++ [source], ?_, ?_⟩
      · rw [if_neg fun h => by simpa [hsup] using (mem_candidates.mp h).2]
        exact hnext
      · exact hstand.refuse (by rw [Builder.turn, if_neg hex, hsup]) hres hfails hbest
    | ok supported =>
      rw [hsup, List.append_nil] at hfails
      have hsame := hstand.same ⟨hres, hfails, hbest⟩
      cases supported with
      | false =>
        refine ⟨seen ++ [source], ?_, hsame.skip (by rw [Builder.turn, if_neg hex, hsup])⟩
        rw [if_neg fun h => by simpa [hsup] using (mem_candidates.mp h).2]
        exact hnext
      | true =>
        refine ⟨seen, ?_, hsame⟩
        rw [if_pos (mem_candidates.mpr ⟨hin, hsup⟩)]
        exact hsplit

/-- A turn of the source loop keeps what the loop has of the key. -/
theorem ChainHolds.visit (h : ChainHolds b q allowed memo rank l (.visiting (source :: sources)))
    (hs : Sees q forced memo rank s c l (.visiting (source :: sources)))
    (hm : b.moveOwned s c keys l (.visiting (source :: sources)) .go = some m) :
    ∃ l' p', m.body = .resolveOwned keys l' p' ∧ ChainHolds b q allowed memo rank l' p' := by
  have hnodup : (Builder.visit (s.runtime c.runtime) l).unresolved.Nodup := h.distinct.filter _
  have hopen : ∀ k ∈ (Builder.visit (s.runtime c.runtime) l).unresolved,
      (Builder.visit (s.runtime c.runtime) l).resolved.get? k = none :=
    fun k hk => Dict.get?_eq_none.mpr (mem_visit_rest.mp hk).2
  have hprogress : (∃ seen, b.sources = seen ++ source :: sources ∧
      q.key ∈ (Builder.visit (s.runtime c.runtime) l).unresolved ∧
        Standing b q (Builder.visit (s.runtime c.runtime) l) seen) ∨
      ChainAnswered b q allowed memo (Builder.visit (s.runtime c.runtime) l) := by
    rcases h.progress with ⟨seen, hsplit, hk, hstand⟩ | hdone
    · cases hpin : (s.runtime c.runtime).pinned q.key with
      | none =>
        have hstand' := hstand.same (visit_same fun _ => hpin)
        refine .inl ⟨seen, hsplit, mem_visit_rest.mpr ⟨hk, ?_⟩, hstand'⟩
        exact Dict.get?_eq_none.mp hstand'.unresolved
      | some v =>
        exact .inr ⟨_, visit_pinned hk hpin, .inr ⟨v, hs.decided _ v rfl hk hpin, .inl rfl⟩⟩
    · refine .inr (hdone.same (visit_same fun hk => ?_))
      obtain ⟨r, hr, _⟩ := hdone
      rw [h.waiting hk] at hr
      cases hr
  have hsteps := moveOwned_visiting hm
  generalize hvisit : Builder.visit (s.runtime c.runtime) l = l₁ at hsteps hnodup hopen hprogress
  dsimp only at hsteps
  -- what a turn that goes on has of the key, whether or not it has candidates
  have hgoes : (∃ seen, b.sources = seen ++ (if q.key ∈ Builder.candidates source
        (consideredKeys (s.runtime c.runtime) source l₁) then source :: sources else sources) ∧
      q.key ∈ (Builder.consider source l₁
        (consideredKeys (s.runtime c.runtime) source l₁)).unresolved ∧
      Standing b q (Builder.consider source l₁
        (consideredKeys (s.runtime c.runtime) source l₁)) seen) ∨
      ChainAnswered b q allowed memo (Builder.consider source l₁
        (consideredKeys (s.runtime c.runtime) source l₁)) := by
    rcases hprogress with ⟨seen, hsplit, hk, hstand⟩ | hdone
    · obtain ⟨seen', hsplit', hstand'⟩ := consider_progress hs.excluded hnodup hsplit hk hstand
      refine .inl ⟨seen', hsplit', ?_, hstand'⟩
      rw [unresolved_consider]
      exact hk
    · right
      unfold ChainAnswered
      rw [resolved_consider]
      exact hdone
  rcases hsteps with ⟨hnil, hbody⟩ | ⟨hnil, hbody⟩ | hbody
  · refine ⟨_, _, hbody, .passing hnodup rfl rfl rfl List.not_mem_nil (.inr ?_)⟩
    rcases hprogress with ⟨seen, _, hk, _⟩ | hdone
    · rw [hnil] at hk
      cases hk
    · exact hdone
  · rw [hnil, if_neg List.not_mem_nil] at hgoes
    refine ⟨_, _, hbody, .unasked ?_ ?_ (fun hk => ?_) rfl rfl rfl hgoes⟩
    · rw [unresolved_consider]
      exact hnodup
    · show (Builder.consider _ _ _).unresolved.Nodup
      rw [unresolved_consider]
      exact hnodup
    · rw [resolved_consider]
      refine hopen _ ?_
      rwa [OwnedPhase.turns, unresolved_consider] at hk
  · refine ⟨_, _, hbody, ⟨?_, (hnodup.filter _).filter _, fun hk => ?_, ?_, ?_, List.not_mem_nil,
      hgoes⟩⟩
    · rw [unresolved_consider]
      exact hnodup
    · rw [resolved_consider]
      exact hopen _ (List.mem_of_mem_filter (mem_candidates.mp hk).1)
    · rintro source' ⟨⟩ hk
      obtain ⟨hconsidered, hsup⟩ := mem_candidates.mp hk
      refine ⟨?_, hsup⟩
      rw [← hs.excluded]
      simpa using (List.mem_filter.mp hconsidered).2
    · intro v hv
      cases hv

/-! ## Harvests -/

/-- A key that waits for its turn stands. -/
theorem ChainHolds.standing (h : ChainHolds b q allowed memo rank l p) (hk : q.key ∈ p.turns l) :
    ∃ seen, b.sources = seen ++ p.ahead q.key ∧ q.key ∈ p.unsettled l ∧ Standing b q l seen := by
  rcases h.progress with hstand | hdone
  · exact hstand
  · obtain ⟨r, hr, _⟩ := hdone
    rw [h.waiting hk] at hr
    cases hr

/-- Another key's entries leave this one as it is. -/
theorem sameAt_set {k key : K} (h : k ≠ key) (r : ResolutionResult K V) :
    SameAt k l { l with resolved := l.resolved.set key r } :=
  ⟨Dict.get?_set_ne _ _ h, rfl, rfl⟩

theorem sameAt_fail {k key : K} (h : k ≠ key) (failure : SourceFailure) :
    SameAt k l (l.fail key failure) :=
  ⟨rfl, by rw [failures_fail, if_neg h, List.append_nil], rfl⟩

theorem sameAt_keepStale {k key : K} (h : k ≠ key) (value : SnapshotValue K V) :
    SameAt k l (b.keepStale l key value) := by
  unfold Builder.keepStale
  split
  · exact ⟨rfl, rfl, Dict.get?_set_ne _ _ h⟩
  · exact ⟨rfl, rfl, rfl⟩

omit [DecidableEq K] in
/-- A consulted source that is asked amounts to the harvest of its answer. -/
theorem turn_asked (hex : q.excluded source.name = false) (hsup : source.supports q.key = .ok true) :
    b.turn q source = some (b.harvest q.now 0 source q.key (q.answer source)) := by
  rw [Builder.turn, hex, hsup]
  rfl

/-- One attempt is dealt with: the key's own brings it forward, another key's leaves it alone. -/
theorem ChainHolds.harvest {key : K} {rest : List K} {attempts : List (K × SourceAttempt K V)}
    {fresh fresh' : List (SnapshotValue K V)}
    (h : ChainHolds b q allowed memo rank l (.harvesting source sources attempts (key :: rest) fresh))
    (hun : l'.unresolved = l.unresolved) (hsame : q.key ≠ key → SameAt q.key l l')
    (hranks : ∀ v ∈ fresh', v.key = q.key → v.authorityRank = rank)
    (hown : q.key = key → ∀ seen, b.sources = seen ++ source :: sources → Standing b q l seen →
      b.turn q source = some (b.harvest q.now 0 source q.key (q.answer source)) →
      Standing b q l' (seen ++ [source]) ∨ ChainAnswered b q allowed memo l') :
    ChainHolds b q allowed memo rank l' (.harvesting source sources attempts rest fresh') := by
  have hnodup : key ∉ rest ∧ rest.Nodup := List.nodup_cons.mp h.turns
  refine ⟨hun ▸ h.distinct, hnodup.2, fun hk => ?_, fun source' hs hk => ?_, hranks, h.beaten, ?_⟩
  · have hne : q.key ≠ key := fun heq => hnodup.1 (heq ▸ hk)
    rw [(hsame hne).resolved]
    exact h.waiting (List.mem_cons_of_mem _ hk)
  · exact h.asked source' hs (List.mem_cons_of_mem _ hk)
  · by_cases heq : q.key = key
    · have hturn : q.key ∈ key :: rest := heq ▸ List.mem_cons_self
      obtain ⟨seen, hsplit, hk, hstand⟩ := h.standing hturn
      obtain ⟨hex, hsup⟩ := h.asked source rfl hturn
      rw [OwnedPhase.ahead, if_pos hturn] at hsplit
      rcases hown heq seen hsplit hstand (turn_asked hex hsup) with hnext | hdone
      · refine .inl ⟨seen ++ [source], ?_, ?_, hnext⟩
        · rw [OwnedPhase.ahead, if_neg (heq ▸ hnodup.1), hsplit, List.append_assoc]
          rfl
        · show q.key ∈ l'.unresolved
          rw [hun]
          exact hk
      · exact .inr hdone
    · have hmem : q.key ∈ key :: rest ↔ q.key ∈ rest := by simp [heq]
      rcases h.progress with ⟨seen, hsplit, hk, hstand⟩ | hdone
      · refine .inl ⟨seen, ?_, ?_, hstand.same (hsame heq)⟩
        · rw [hsplit, OwnedPhase.ahead, OwnedPhase.ahead]
          simp only [hmem]
        · show q.key ∈ l'.unresolved
          rw [hun]
          exact hk
      · exact .inr (hdone.same (hsame heq))

/-! ## The end of a pass and the end of the loop -/

/-- A pass is over: the keys without a result go on to the next source. -/
theorem ChainHolds.settle (h : ChainHolds b q allowed memo rank l p) (hahead : p.ahead q.key = sources)
    (hun : p.unsettled l = l.unresolved) :
    ChainHolds b q allowed memo rank l.settle (.visiting sources) := by
  have hsame : SameAt q.key l l.settle := ⟨rfl, rfl, rfl⟩
  refine .unasked (h.distinct.filter _) (h.distinct.filter _) (fun hk => ?_) rfl rfl rfl ?_
  · exact Dict.get?_eq_none.mpr (mem_settle_unresolved.mp hk).2
  · rcases h.progress with ⟨seen, hsplit, hk, hstand⟩ | hdone
    · rw [hahead] at hsplit
      rw [hun] at hk
      refine .inl ⟨seen, hsplit, mem_settle_unresolved.mpr ⟨hk, ?_⟩, hstand.same hsame⟩
      exact Dict.get?_eq_none.mp hstand.unresolved
    · exact .inr (hdone.same hsame)

/-- The end of one key, with the tests that the list of moves leaves out. -/
theorem moveOwned_finishing {key : K} {rest : List K} {stales : List (SnapshotValue K V)}
    (h : b.moveOwned s c keys l (.finishing (key :: rest) stales) .go = some m) :
    ∃ stales', m.body = .resolveOwned keys
      { l with
        resolved := l.resolved.set key
          (match if (b.policyFor key).allowStaleOnError &&
              !(s.runtime c.runtime).requiresRefresh key then l.bestStale.get? key else none with
            | some stale => .ok stale
            | none => .error (.resourceResolution key ((l.failures.get? key).getD []))) }
      (.finishing rest stales') := by
  unfold Builder.moveOwned at h
  dsimp only at h
  split at h
  · rename_i hbest
    cases h
    refine ⟨stales, ?_⟩
    rw [hbest, ite_self]
    rfl
  · rename_i stale hbest
    split at h
    · rename_i hallow
      cases h
      refine ⟨stales ++ [stale], ?_⟩
      rw [if_pos hallow, hbest]
    · rename_i hallow
      cases h
      refine ⟨stales, ?_⟩
      rw [if_neg hallow]
      rfl

theorem ChainHolds.finish {key : K} {rest : List K} {stales : List (SnapshotValue K V)}
    (h : ChainHolds b q ((b.policyFor q.key).allowStaleOnError && !forced) memo rank l
      (.finishing (key :: rest) stales))
    (hs : Sees q forced memo rank s c l (.finishing (key :: rest) stales))
    (hm : b.moveOwned s c keys l (.finishing (key :: rest) stales) .go = some m) :
    ∃ l' p', m.body = .resolveOwned keys l' p' ∧
      ChainHolds b q ((b.policyFor q.key).allowStaleOnError && !forced) memo rank l' p' := by
  obtain ⟨stales', hbody⟩ := moveOwned_finishing hm
  have hnodup : key ∉ rest ∧ rest.Nodup := List.nodup_cons.mp h.turns
  refine ⟨_, _, hbody, .unasked h.distinct hnodup.2 (fun hk => ?_) rfl rfl rfl ?_⟩
  · have hne : q.key ≠ key := fun heq => hnodup.1 (heq ▸ hk)
    exact (Dict.get?_set_ne _ _ hne).trans (h.waiting (List.mem_cons_of_mem _ hk))
  · by_cases heq : q.key = key
    · subst heq
      obtain ⟨seen, hsplit, _, hstand⟩ := h.standing List.mem_cons_self
      have hall : b.sources = seen := by rw [hsplit]; exact List.append_nil seen
      subst hall
      refine .inr ⟨_, Dict.get?_set_self _ _ _, ?_⟩
      rcases hs.forced rest stales rfl with hforced | ⟨hfree, v, hv⟩
      · rw [hforced]
        exact .inl (hstand.finish _)
      · rw [hfree, Bool.not_false, Bool.and_true]
        exact .inr ⟨v, hv, .inr (hstand.finish _)⟩
    · rcases h.progress with ⟨seen, hsplit, hk, hstand⟩ | hdone
      · exact .inl ⟨seen, hsplit, (List.mem_cons.mp hk).resolve_left heq,
          hstand.same (sameAt_set heq _)⟩
      · exact .inr (hdone.same (sameAt_set heq _))

/-- Equal ranks: what is written for the key supersedes nothing and is not superseded. -/
theorem superseded_rank {fresh : List (SnapshotValue K V)}
    (hfresh : ∀ v ∈ fresh, v.key = q.key → v.authorityRank = rank)
    (hcache : ∀ w, s.cache.get? q.key = some w → w.authorityRank ≤ rank) :
    q.key ∉ (superseded b fresh (b.setMany s.cache fresh).1).map Prod.fst := by
  intro hk
  obtain ⟨entry, hentry, heq⟩ := List.mem_map.mp hk
  obtain ⟨v, _, hkey, r, hfind, hstatus, _⟩ := mem_superseded hentry
  have hvk : v.key = q.key := hkey.symm.trans heq
  obtain ⟨hold, hlow⟩ := setMany_ignored b s.cache fresh hfind (by rw [hstatus]; decide)
  obtain ⟨w, hw, hwkey, hrank⟩ := hlow hstatus
  rw [hvk] at hold hwkey
  have hle := hcache _ hold
  rw [hfresh w hw hwkey] at hrank
  omega

/-- Every move of the loop keeps what it has of the key, or raises. -/
theorem moveOwned_chain (hranks : ∀ source ∈ b.sources,
      (b.authorityFor q.key).rankFor source.name = rank)
    (h : ChainHolds b q ((b.policyFor q.key).allowStaleOnError && !forced) memo rank l p)
    (hs : Sees q forced memo rank s c l p) (hm : b.moveOwned s c keys l p e = some m) :
    ∃ l' p', m.body = .resolveOwned keys l' p' ∧ ((∃ err, p' = .raised err) ∨
      ChainHolds b q ((b.policyFor q.key).allowStaleOnError && !forced) memo rank l' p') := by
  cases moveOwned_cases hm with
  | exhausted =>
    exact ⟨_, _, rfl, .inr (.unasked h.distinct h.distinct h.waiting rfl rfl rfl h.progress)⟩
  | settled =>
    obtain ⟨l', p', hbody, hnext⟩ := h.visit hs hm
    exact ⟨l', p', hbody, .inr hnext⟩
  | skip =>
    obtain ⟨l', p', hbody, hnext⟩ := h.visit hs hm
    exact ⟨l', p', hbody, .inr hnext⟩
  | attempt =>
    obtain ⟨l', p', hbody, hnext⟩ := h.visit hs hm
    exact ⟨l', p', hbody, .inr hnext⟩
  | dispatch =>
    refine ⟨_, _, rfl, .inr ⟨h.distinct, h.turns, h.waiting, h.asked, ?_, ?_, h.progress⟩⟩
    · exact fun v hv => (List.not_mem_nil hv).elim
    · exact List.not_mem_nil
  | gather =>
    refine ⟨_, _, rfl, .inr ⟨h.distinct, h.turns, h.waiting, h.asked, ?_, ?_, h.progress⟩⟩
    · exact fun v hv => (List.not_mem_nil hv).elim
    · exact List.not_mem_nil
  | harvestMissing => exact ⟨_, _, rfl, .inl ⟨_, rfl⟩⟩
  | @refuse source sources attempts attempt key rest fresh failure ha hh =>
    refine ⟨_, _, rfl, .inr (h.harvest rfl (fun hne => sameAt_fail hne failure) h.ranks ?_)⟩
    rintro rfl seen hsplit hstand hturn
    have hanswer := hs.answers source sources attempts rest fresh attempt rfl ha
    rw [hanswer, hs.now] at hh
    rcases harvest_versioned (b := b) q.now s.revisions.length source q.key (q.answer source) with
      ⟨f, hf, hzero⟩ | ⟨v, d, hf, _⟩ | ⟨v, d, hf, _⟩
    · rw [hh, Builder.Harvest.refused.injEq] at hf
      subst hf
      rw [hzero] at hturn
      refine .inl (hstand.refuse hturn rfl ?_ rfl)
      rw [failures_fail, if_pos rfl]
    · rw [hh] at hf
      cases hf
    · rw [hh] at hf
      cases hf
  | @keep source sources attempts attempt key rest fresh value versions ha hh =>
    refine ⟨_, _, rfl, .inr (h.harvest ?_ (fun hne => ?_) h.ranks ?_)⟩
    · rw [unresolved_fail, unresolved_keepStale]
    · have hfirst := sameAt_keepStale (b := b) (l := l) hne value
      have hsecond := sameAt_fail (l := b.keepStale l key value) hne ⟨source.name, "StaleSourceData"⟩
      exact ⟨hsecond.resolved.trans hfirst.resolved, hsecond.failures.trans hfirst.failures,
        hsecond.best.trans hfirst.best⟩
    · rintro rfl seen hsplit hstand hturn
      have hanswer := hs.answers source sources attempts rest fresh attempt rfl ha
      rw [hanswer, hs.now] at hh
      rcases harvest_versioned (b := b) q.now s.revisions.length source q.key (q.answer source) with
        ⟨f, hf, _⟩ | ⟨v, d, hf, hzero⟩ | ⟨v, d, hf, _⟩
      · rw [hh] at hf
        cases hf
      · rw [hh, Builder.Harvest.stale.injEq] at hf
        obtain ⟨rfl, rfl⟩ := hf
        rw [hzero] at hturn
        exact .inl (hstand.keep hturn)
      · rw [hh] at hf
        cases hf
  | @accept source sources attempts attempt key rest fresh value versions ha hh =>
    obtain ⟨payload, _, hvalue⟩ := harvest_value (.inl hh)
    refine ⟨_, _, rfl, .inr (h.harvest rfl (fun hne => sameAt_set hne _) ?_ ?_)⟩
    · intro v hv hkey
      rcases List.mem_append.mp hv with hv | hv
      · exact h.ranks v hv hkey
      · rw [List.mem_singleton] at hv
        subst hv
        rw [hvalue] at hkey ⊢
        have hturn : q.key ∈ key :: rest := by rw [← hkey]; exact List.mem_cons_self
        obtain ⟨seen, hsplit, _, _⟩ := h.standing hturn
        rw [OwnedPhase.ahead, if_pos hturn] at hsplit
        have hmem : source ∈ b.sources := by rw [hsplit]; simp
        have hk : key = q.key := hkey
        show (b.authorityFor key).rankFor source.name = rank
        rw [hk]
        exact hranks source hmem
    · rintro rfl seen hsplit hstand hturn
      have hanswer := hs.answers source sources attempts rest fresh attempt rfl ha
      rw [hanswer, hs.now] at hh
      rcases harvest_versioned (b := b) q.now s.revisions.length source q.key (q.answer source) with
        ⟨f, hf, _⟩ | ⟨v, d, hf, _⟩ | ⟨v, d, hf, hzero⟩
      · rw [hh] at hf
        cases hf
      · rw [hh] at hf
        cases hf
      · rw [hh, Builder.Harvest.fresh.injEq] at hf
        obtain ⟨rfl, rfl⟩ := hf
        rw [hzero] at hturn
        exact .inr (hstand.accept hsplit hturn (Dict.get?_set_self _ _ _))
  | publish =>
    exact ⟨_, _, rfl, .inr (.between h.distinct rfl rfl h.ranks List.not_mem_nil h.progress)⟩
  | harvested => exact ⟨_, _, rfl, .inr (h.settle rfl rfl)⟩
  | write =>
    exact ⟨_, _, rfl, .inr (.passing h.distinct rfl rfl rfl (superseded_rank h.ranks hs.ranks)
      h.progress)⟩
  | wrote =>
    exact ⟨_, _, rfl, .inr (.passing h.distinct rfl rfl rfl h.beaten h.progress)⟩
  | superseded => exact ⟨_, _, rfl, .inr (h.settle rfl rfl)⟩
  | supersede =>
    exact ⟨_, _, rfl, .inr (.passing h.distinct rfl rfl rfl h.beaten h.progress)⟩
  | @installWinner sources key copy rest =>
    have hne : q.key ≠ key ∧ q.key ∉ rest.map Prod.fst := by
      simpa [OwnedPhase.beaten] using h.beaten
    refine ⟨_, _, rfl, .inr (.passing h.distinct rfl rfl rfl hne.2 ?_)⟩
    rcases h.progress with ⟨seen, hsplit, hk, hstand⟩ | hdone
    · exact .inl ⟨seen, hsplit, hk, hstand.same (sameAt_set hne.1 _)⟩
    · exact .inr (hdone.same (sameAt_set hne.1 _))
  | finishStale =>
    obtain ⟨l', p', hbody, hnext⟩ := h.finish hs hm
    exact ⟨l', p', hbody, .inr hnext⟩
  | finishError =>
    obtain ⟨l', p', hbody, hnext⟩ := h.finish hs hm
    exact ⟨l', p', hbody, .inr hnext⟩
  | publishStale =>
    exact ⟨_, _, rfl, .inr (.passing h.distinct rfl rfl rfl List.not_mem_nil h.progress)⟩
  | finished =>
    exact ⟨_, _, rfl, .inr (.passing h.distinct rfl rfl rfl List.not_mem_nil h.progress)⟩
  | writeStale =>
    exact ⟨_, _, rfl, .inr (.passing h.distinct rfl rfl rfl List.not_mem_nil h.progress)⟩
  | wroteStale =>
    exact ⟨_, _, rfl, .inr (.passing h.distinct rfl rfl rfl List.not_mem_nil h.progress)⟩
  | interrupt => exact ⟨_, _, rfl, .inl ⟨_, rfl⟩⟩

/-! ## Runs -/

/-- Around loop `i` and its key `k` the clock stands still, the sources answer as `answer` says, no
cached value has a rank above theirs, and `memo` holds of every value that the memo of the session has
for the key while the loop has none. -/
structure Steady (i : ℕ) (k : K) (answer : Source K → SourceAttempt K V)
    (memo : SnapshotValue K V → Prop) (rank : ℤ) (s : State K V) (l : Label K V) : Prop where
  clock : ∀ now, l = .tick now → now = s.now
  decided : ∀ c keys lo p v, s.frame? i = some ⟨c, .resolveOwned keys lo p⟩ →
    lo.resolved.get? k = none → (s.runtime c.runtime).pinned k = some v → memo v
  answers : ∀ c keys lo source sources attempts rest fresh a, s.frame? i =
      some ⟨c, .resolveOwned keys lo (.harvesting source sources attempts (k :: rest) fresh)⟩ →
    Dict.find attempts k = some a → a = answer source
  ranks : ∀ w, s.cache.get? k = some w → w.authorityRank ≤ rank

/-- What the loop keeps of its session: the exclusions, and whether the key is to be refreshed for as
long as nothing decides it. -/
structure SessionKept (r₀ : ResolutionRuntime K V) (k : K) (r : ResolutionRuntime K V) : Prop where
  excluded : r.excludedSources = r₀.excludedSources
  forced : k ∈ r₀.forceRefreshKeys → k ∈ r.forceRefreshKeys ∨ ∃ v, r.pinned k = some v
  free : k ∉ r₀.forceRefreshKeys → k ∉ r.forceRefreshKeys

theorem SessionKept.stored {r₀ r r' : ResolutionRuntime K V} {k j : K} {v : SnapshotValue K V}
    (h : SessionKept r₀ k r) (hs : r.Stored r' j v) : SessionKept r₀ k r' := by
  refine ⟨?_, fun hf => ?_, fun hf hk => h.free hf (hs.force_subset hk)⟩
  · rw [← h.excluded]
    rcases hs with rfl | rfl <;> rfl
  · rcases h.forced hf with hk | ⟨w, hw⟩
    · by_cases hmem : k ∈ r'.forceRefreshKeys
      · exact .inl hmem
      · right
        have hj : k = j := by
          by_contra hne
          exact hmem ((hs.force hne).mpr hk)
        exact ⟨v, ResolutionRuntime.pinned_eq_some.mpr
          ⟨hmem, by rw [hs.memo, hj, Dict.get?_set_self]⟩⟩
    · exact .inr (hs.pinned_grows hw)

/-- An opened runtime changes only by what is stored in it. -/
theorem Stepped.runtime_stored {l : Label K V} (h : Stepped b s l t) {n : ℕ}
    (hn : n < s.runtimes.length) {P : ResolutionRuntime K V → Prop}
    (hstored : ∀ {r r' : ResolutionRuntime K V} {k : K} {v : SnapshotValue K V},
      r.Stored r' k v → P r → P r') (hp : P (s.runtime n)) : P (t.runtime n) := by
  cases h with
  | @run i e f m hf hm =>
    rcases hm.runtime n with hr | ⟨_, j, w, _, hst⟩ | ⟨hge, _, _⟩
    · show P (m.shared.runtime n)
      rw [hr]
      exact hp
    · exact hstored hst hp
    · omega
  | @openRuntime r _ =>
    rw [runtime_append_lt (s := s.toShared) (r := r) rfl hn]
    exact hp
  | _ => exact hp

/-- What a run keeps of the loop and the key. -/
structure ChainRun (b : Builder K V) (q : Inquiry K V) (r₀ : ResolutionRuntime K V)
    (memo : SnapshotValue K V → Prop) (rank : ℤ) (i : ℕ) (c : Scope K) (keys : List K)
    (s : State K V) : Prop where
  now : s.now = q.now
  opened : c.runtime < s.runtimes.length
  session : SessionKept r₀ q.key (s.runtime c.runtime)
  loop : ∃ l p, s.frame? i = some ⟨c, .resolveOwned keys l p⟩ ∧ ((∃ err, p = .raised err) ∨
    ChainHolds b q ((b.policyFor q.key).allowStaleOnError && !r₀.requiresRefresh q.key) memo rank l p)

theorem ChainRun.sees {r₀ : ResolutionRuntime K V} {i : ℕ} {lo : OwnedLocals K V} {label : Label K V}
    (h : ChainRun b q r₀ memo rank i c keys s) (hl : Steady i q.key q.answer memo rank s label)
    (hr : ∀ name, r₀.sourceIsExcluded q.key name = q.excluded name)
    (hf : s.frame? i = some ⟨c, .resolveOwned keys lo p⟩)
    (hp : ChainHolds b q allowed memo rank lo p) :
    Sees q (r₀.requiresRefresh q.key) memo rank s c lo p where
  now := h.now
  excluded name := by
    rw [← hr name, ResolutionRuntime.sourceIsExcluded, h.session.excluded]
    rfl
  decided sources v hvisit hk := by
    subst hvisit
    exact hl.decided c keys lo _ v hf (hp.waiting hk)
  answers source sources attempts rest fresh a hharvest ha := by
    subst hharvest
    exact hl.answers c keys lo source sources attempts rest fresh a hf ha
  forced rest stales hfinish := by
    subst hfinish
    by_cases hforced : q.key ∈ r₀.forceRefreshKeys
    · rcases h.session.forced hforced with hk | ⟨v, hv⟩
      · left
        rw [Bool.eq_iff_iff, ResolutionRuntime.requiresRefresh_eq_true,
          ResolutionRuntime.requiresRefresh_eq_true]
        exact iff_of_true hk hforced
      · refine .inr ⟨?_, v, hl.decided c keys lo _ v hf (hp.waiting List.mem_cons_self) hv⟩
        rw [← Bool.not_eq_true, ResolutionRuntime.requiresRefresh_eq_true]
        exact (ResolutionRuntime.pinned_eq_some.mp hv).1
    · left
      rw [Bool.eq_iff_iff, ResolutionRuntime.requiresRefresh_eq_true,
        ResolutionRuntime.requiresRefresh_eq_true]
      exact iff_of_false (h.session.free hforced) hforced
  ranks := hl.ranks

theorem ChainRun.step {r₀ : ResolutionRuntime K V} {i : ℕ} {label : Label K V}
    (hranks : ∀ source ∈ b.sources, (b.authorityFor q.key).rankFor source.name = rank)
    (hr : ∀ name, r₀.sourceIsExcluded q.key name = q.excluded name)
    (hl : Steady i q.key q.answer memo rank s label) (hs : ChainRun b q r₀ memo rank i c keys s)
    (h : b.step s label = some t) : ChainRun b q r₀ memo rank i c keys t := by
  have hstep := step_cases h
  refine ⟨?_, lt_of_lt_of_le hs.opened hstep.runtimes_length,
    hstep.runtime_stored hs.opened (fun hst hp => hp.stored hst) hs.session, ?_⟩
  · rw [← hs.now]
    cases hstep with
    | run hf hm => exact hm.now
    | tick => exact hl.clock _ rfl
    | _ => rfl
  · obtain ⟨lo, p, hf, hloop⟩ := hs.loop
    have hstays : (∀ e, label ≠ .run i e) → t.frame? i = some ⟨c, .resolveOwned keys lo p⟩ := by
      intro hne
      cases hstep with
      | @run j e g m hg hm =>
        exact frame?_apply_other m hg hf fun hij => hne e (by rw [hij])
      | call => exact frame?_append hf
      | _ => exact hf
    by_cases hrun : ∃ e, label = .run i e
    · obtain ⟨e, rfl⟩ := hrun
      obtain ⟨g, m, hg, hm, rfl⟩ := step_run.mp h
      rw [hf, Option.some.injEq] at hg
      subst hg
      have hmove : b.moveOwned s c keys lo p e = some m := hm
      rcases hloop with ⟨err, rfl⟩ | hchain
      · cases moveOwned_cases hmove with
        | interrupt hp => cases hp
      · obtain ⟨l', p', hbody, hnext⟩ :=
          moveOwned_chain hranks hchain (hs.sees hl hr hf hchain) hmove
        refine ⟨l', p', ?_, hnext⟩
        rw [frame?_apply_self m hf, hbody]
    · exact ⟨lo, p, hstays fun e he => hrun ⟨e, he⟩, hloop⟩

/-- The distinct keys of a loop that starts. -/
theorem whole_of_run {now : ℚ} {cache : AsyncMemoryCache K V} {revisions : List (Dict K ℕ)}
    {ls : List (Label K V)} (h : Run b.step (State.initial now cache revisions) ls s) : s.Whole := by
  refine h.invariant State.Whole (fun _ _ _ _ hs hstep => step_whole hstep hs) ?_
  intro i f hf
  simp [State.frame?, State.initial] at hf

end

/-! ## A stale answer, with and without a forced refresh -/

def Builder.Harvest.isFresh {K V : Type} : Builder.Harvest K V → Bool
  | .fresh _ _ => true
  | _ => false

def pairedSources : Builder ℕ ℕ where
  sources := [⟨"first", 1, .single, fun _ => .ok true, fun _ => .ok []⟩,
    ⟨"second", 0, .batch none, fun _ => .ok true, fun _ => .ok []⟩]
  policyFor := fun _ => .blocking 10 20 ten_nonneg ten_le_twenty
  authorityFor := fun _ => ⟨.empty, 0⟩
  copier := id
  futureToleranceSeconds := 1
  rejectFutureObservations := true
  maxConcurrency := 8
  maxPendingTasks := 8
  sourceLimit := fun _ => none
  sorted := by simp
  maxConcurrency_pos := eight_pos
  maxPendingTasks_pos := eight_pos

theorem catalogOrder_sources (b : Builder ℕ ℕ) : b.sources = catalogOrder b.sources := by
  refine (List.mergeSort_of_pairwise ?_).symm
  exact b.sorted.imp fun h => decide_eq_true h

/-- The first source answers with an observation past its time to live, the second fails. -/
def lateAnswer (source : Source ℕ) : SourceAttempt ℕ ℕ :=
  if source.name = "first" then .succeeded ⟨7, some (-15)⟩ .empty else .failed (.other "ValueError")

def sameAttempt : SourceAttempt ℕ ℕ → SourceAttempt ℕ ℕ → Bool
  | .succeeded payload versions, .succeeded payload' versions' =>
    decide (payload.value = payload'.value) && decide (payload.observedAt = payload'.observedAt) &&
      decide (versions.entries = versions'.entries)
  | .failed e, .failed e' => decide (e = e')
  | _, _ => false

theorem sameAttempt_eq {a a' : SourceAttempt ℕ ℕ} (h : sameAttempt a a' = true) : a = a' := by
  cases a with
  | succeeded payload versions =>
    cases a' with
    | succeeded payload' versions' =>
      obtain ⟨value, observedAt⟩ := payload
      obtain ⟨value', observedAt'⟩ := payload'
      simp only [sameAttempt, Bool.and_eq_true, decide_eq_true_eq] at h
      obtain ⟨⟨rfl, rfl⟩, hversions⟩ := h
      rw [Dict.ext hversions]
    | failed e' => cases h
  | failed e =>
    cases a' with
    | succeeded payload' versions' => cases h
    | failed e' => rw [of_decide_eq_true h]

/-- A check for `Steady`. -/
def steady (i k : ℕ) (answer : Source ℕ → SourceAttempt ℕ ℕ) (memo : SnapshotValue ℕ ℕ → Bool)
    (rank : ℤ) (s : State ℕ ℕ) : Label ℕ ℕ → Bool
  | .tick _ => false
  | _ =>
    ((s.cache.get? k).all fun w => decide (w.authorityRank ≤ rank)) &&
    match s.frame? i with
    | some ⟨c, .resolveOwned _ lo p⟩ =>
      ((lo.resolved.get? k).isSome || ((s.runtime c.runtime).pinned k).all memo) &&
      match p with
      | .harvesting source _ attempts _ _ =>
        (Dict.find attempts k).all fun a => sameAttempt a (answer source)
      | _ => true
    | _ => true

theorem steady_of_check {i k : ℕ} {answer : Source ℕ → SourceAttempt ℕ ℕ}
    {memo : SnapshotValue ℕ ℕ → Bool} {rank : ℤ} {s : State ℕ ℕ} {l : Label ℕ ℕ}
    (h : steady i k answer memo rank s l = true) :
    Steady i k answer (fun v => memo v = true) rank s l := by
  have hnow : ∀ now, l ≠ .tick now := by
    rintro now rfl
    cases h
  unfold steady at h
  split at h
  · cases h
  · rw [Bool.and_eq_true] at h
    obtain ⟨hcache, hframe⟩ := h
    refine ⟨fun now hl => absurd hl (hnow now), ?_, ?_, ?_⟩
    · intro c keys lo p v hf hnone hpin
      rw [hf] at hframe
      simp only [hnone, hpin, Option.isSome_none, Option.all_some, Bool.false_or,
        Bool.and_eq_true] at hframe
      exact hframe.1
    · intro c keys lo source sources attempts rest fresh a hf ha
      rw [hf] at hframe
      simp only [Bool.and_eq_true, ha, Option.all_some] at hframe
      exact sameAttempt_eq hframe.2
    · intro w hw
      rw [hw] at hcache
      simpa using hcache

/-- The loop of a flight, and the loop of a key that its session must refresh. -/
def flightLoop : List (Label ℕ ℕ) :=
  [.openRuntime .new, .call 0 none [0]] ++ turns [(0, 6), (1, 1)]

def forcedLoop : List (Label ℕ ℕ) :=
  [.openRuntime { ResolutionRuntime.new with forceRefreshKeys := [0] }, .call 0 none [0]] ++
    turns [(0, 2)]

/-- Loop `i` asks both sources in units of work `i + 1` and `i + 2` and ends after `n` moves. -/
def lateAnswers (i n : ℕ) : List (Label ℕ ℕ) :=
  turns [(i, 2)] ++ [.run (i + 1) (.answer (Dict.empty.set 0 ⟨7, some (-15)⟩))] ++ turns [(i, 5)] ++
    [.run (i + 2) (.raise (.other "ValueError" valueError_named))] ++ turns [(i, n)]

/-- What a finished source loop returned for key 0: the time of the observation, or the failures. -/
def State.loopResult (s : State ℕ ℕ) (i : ℕ) : Option (Except (List SourceFailure) ℚ) :=
  match s.frame? i with
  | some ⟨_, .resolveOwned _ l .done⟩ => (l.resolved.get? 0).map fun
    | .ok v => .ok v.observedAt
    | .error (.resourceResolution _ failures) => .error failures
    | .error _ => .error []
  | _ => none

theorem loopResult_some {s : State ℕ ℕ} {i : ℕ} {r : Except (List SourceFailure) ℚ}
    (h : s.loopResult i = some r) : ∃ resolved result, s.ownedOutcome i = some (.ok resolved) ∧
      resolved.get? 0 = some result ∧
      (∀ at_, r = .ok at_ → ∃ v, result = .ok v ∧ v.observedAt = at_) ∧
      ∀ failures, r = .error failures → ∀ v, result ≠ .ok v := by
  unfold State.loopResult at h
  split at h
  · rename_i c keys l hf
    obtain ⟨result, hresult, hr⟩ := Option.map_eq_some_iff.mp h
    refine ⟨l.resolved, result, ?_, hresult, ?_, ?_⟩
    · unfold State.ownedOutcome
      rw [hf]
    · rintro at_ rfl
      cases result with
      | ok v => exact ⟨v, rfl, Except.ok.inj hr⟩
      | error e => cases e <;> cases hr
    · rintro failures rfl v rfl
      cases hr
  · cases h

def agedValue : SnapshotValue ℕ ℕ := ⟨0, 5, "plain", -15, -15, 0, false, false, 0, 0, .empty⟩

/-- Key 0 is in the cache, past its time to live. -/
def agedState : State ℕ ℕ :=
  .initial 0 (pairBuilder.setMany (.new none AsyncMemoryCache.unlimited) [agedValue]).2 [.empty]

/-- A session asks for key 2, which is derived from key 0, and for key 0. -/
def nestedLoop : List (Label ℕ ℕ) :=
  [.openRuntime .new, .call 0 none [2, 0]] ++ turns [(0, 7), (1, 1)]

/-- The one source of key 0 fails in the nested resolution, which falls back to the cached value. -/
def nestedFailure : List (Label ℕ ℕ) :=
  turns [(2, 2), (3, 1), (4, 5), (5, 3)] ++ [.run 6 (.raise (.other "ValueError" valueError_named))] ++
    turns [(5, 6), (4, 4), (3, 2)] ++ [.run 3 (.answer (Dict.empty.set 2 ⟨9, none⟩))] ++
    turns [(2, 8)]

def failedAnswer (_ : Source ℕ) : SourceAttempt ℕ ℕ := .failed (.other "ValueError")

end Coalestra
