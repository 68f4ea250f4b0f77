import Mathlib.Logic.Relation
import Coalestra.Core.Consistency
import Coalestra.Core.Errors
import Coalestra.Lib.Runs

/-! # Sessions

`orchestration/session.py`: the operations of one `SnapshotSession` between two awaits. The session
lock admits one call at a time; the phase of that call is part of the state. What `_resolve_many`
delivers at an await is an outcome that covers exactly the keys it was given. A producer that an
abandoned resolution leaves behind may still write the session memo, at any time. -/

namespace Coalestra
set_option autoImplicit false
set_option maxHeartbeats 250000

/-! ## Affected keys -/

section
variable {K V : Type} [DecidableEq K]

/-- One pass of the `while` loop of `_affected_keys_from_memo` over the memo. -/
def affectedRound (memo : Dict K (SnapshotValue K V)) (affected : List K) : List K :=
  memo.entries.foldl (fun affected entry =>
    if entry.1 ∈ affected then affected
    else if entry.2.dependencyVersions.keys.any fun dependency => decide (dependency ∈ affected)
    then affected ++ [entry.1] else affected) affected

def affectedLoop (memo : Dict K (SnapshotValue K V)) : ℕ → List K → List K
  | 0, affected => affected
  | fuel + 1, affected =>
    let next := affectedRound memo affected
    if next.length = affected.length then affected else affectedLoop memo fuel next

/-- `_affected_keys_from_memo`: every changing pass adds a memo key, so one pass per entry and one
more reach the fixpoint. -/
def affectedKeysFromMemo (requested : List K) (memo : Dict K (SnapshotValue K V)) : List K :=
  affectedLoop memo (memo.size + 1) requested

/-- `dependent` records a version of `dependency` in the memo. -/
def RecordsDependency (memo : Dict K (SnapshotValue K V)) (dependency dependent : K) : Prop :=
  ∃ value, memo.get? dependent = some value ∧ dependency ∈ value.dependencyVersions.keys

/-- Some selected key reaches `k` through recorded dependency versions. -/
def Reached (memo : Dict K (SnapshotValue K V)) (selected : List K) (k : K) : Prop :=
  ∃ r ∈ selected, Relation.ReflTransGen (RecordsDependency memo) r k

theorem affectedRound_sound {memo : Dict K (SnapshotValue K V)} {selected affected : List K}
    (h : ∀ k ∈ affected, Reached memo selected k) :
    ∀ k ∈ affectedRound memo affected, Reached memo selected k := by
  have aux : ∀ (entries : List (K × SnapshotValue K V)) (affected : List K),
      (∀ e ∈ entries, memo.get? e.1 = some e.2) → (∀ k ∈ affected, Reached memo selected k) →
      ∀ k ∈ entries.foldl (fun affected entry =>
        if entry.1 ∈ affected then affected
        else if entry.2.dependencyVersions.keys.any fun d => decide (d ∈ affected)
        then affected ++ [entry.1] else affected) affected, Reached memo selected k := by
    intro entries
    induction entries with
    | nil => intro affected _ h; exact h
    | cons e entries ih =>
      intro affected hentries h
      rw [List.foldl_cons]
      refine ih _ (fun e' he' => hentries e' (List.mem_cons_of_mem _ he')) ?_
      split
      · exact h
      · split
        · rename_i hany
          intro k hk
          rcases List.mem_append.mp hk with hk | hk
          · exact h k hk
          · rw [List.mem_singleton] at hk
            subst hk
            obtain ⟨d, hd, hmem⟩ := List.any_eq_true.mp hany
            obtain ⟨r, hr, hpath⟩ := h d (of_decide_eq_true hmem)
            exact ⟨r, hr, hpath.tail ⟨e.2, hentries e List.mem_cons_self, hd⟩⟩
        · exact h
  exact aux memo.entries affected (fun e he => Dict.mem_entries.mp he) h

/-- The body of the `for` loop. -/
def affectedNext (affected : List K) (entry : K × SnapshotValue K V) : List K :=
  if entry.1 ∈ affected then affected
  else if entry.2.dependencyVersions.keys.any fun dependency => decide (dependency ∈ affected)
  then affected ++ [entry.1] else affected

/-- A pass adds memo keys only, and one that adds none has found every dependent. -/
theorem foldl_affectedNext (entries : List (K × SnapshotValue K V)) :
    ∀ affected : List K, ∃ added, entries.foldl affectedNext affected = affected ++ added ∧
      (∀ k ∈ added, k ∈ entries.map Prod.fst ∧ k ∉ affected) ∧
      (added = [] → ∀ e ∈ entries, e.1 ∈ affected ∨
        ∀ d ∈ e.2.dependencyVersions.keys, d ∉ affected) := by
  induction entries with
  | nil => exact fun affected => ⟨[], by simp⟩
  | cons e entries ih =>
    intro affected
    rw [List.foldl_cons]
    have hskip : affectedNext affected e = affected →
        (e.1 ∈ affected ∨ ∀ d ∈ e.2.dependencyVersions.keys, d ∉ affected) →
        ∃ added, entries.foldl affectedNext (affectedNext affected e) = affected ++ added ∧
          (∀ k ∈ added, k ∈ (e :: entries).map Prod.fst ∧ k ∉ affected) ∧
          (added = [] → ∀ x ∈ e :: entries, x.1 ∈ affected ∨
            ∀ d ∈ x.2.dependencyVersions.keys, d ∉ affected) := by
      intro hsame hclosed
      obtain ⟨added, hadded, hkeys, hall⟩ := ih affected
      rw [hsame]
      refine ⟨added, hadded, fun k hk => ?_, fun hnil x hx => ?_⟩
      · exact ⟨List.mem_cons_of_mem _ (hkeys k hk).1, (hkeys k hk).2⟩
      · rcases List.mem_cons.mp hx with rfl | hx
        · exact hclosed
        · exact hall hnil x hx
    by_cases hmem : e.1 ∈ affected
    · exact hskip (if_pos hmem) (.inl hmem)
    · by_cases hany : e.2.dependencyVersions.keys.any fun d => decide (d ∈ affected)
      · obtain ⟨added, hadded, hkeys, _⟩ := ih (affected ++ [e.1])
        have hnext : affectedNext affected e = affected ++ [e.1] := by
          unfold affectedNext
          rw [if_neg hmem, if_pos hany]
        rw [hnext]
        refine ⟨e.1 :: added, by rw [hadded, List.append_assoc, List.singleton_append], ?_, nofun⟩
        intro k hk
        rcases List.mem_cons.mp hk with rfl | hk
        · exact ⟨List.mem_cons_self, hmem⟩
        · exact ⟨List.mem_cons_of_mem _ (hkeys k hk).1,
            fun h => (hkeys k hk).2 (List.mem_append_left _ h)⟩
      · refine hskip ?_ (.inr fun d hd h => hany (List.any_eq_true.mpr ⟨d, hd, decide_eq_true h⟩))
        unfold affectedNext
        rw [if_neg hmem, if_neg hany]

/-- Every memo key with an affected dependency is affected. -/
def AffectedClosed (memo : Dict K (SnapshotValue K V)) (affected : List K) : Prop :=
  ∀ k v, memo.get? k = some v → k ∈ affected ∨ ∀ d ∈ v.dependencyVersions.keys, d ∉ affected

/-- A pass that adds a key leaves fewer memo keys to add. -/
theorem affectedRound_fewer {memo : Dict K (SnapshotValue K V)} {affected : List K}
    (h : (affectedRound memo affected).length ≠ affected.length) :
    (memo.keys.filter fun k => decide (k ∉ affectedRound memo affected)).length <
      (memo.keys.filter fun k => decide (k ∉ affected)).length := by
  obtain ⟨added, hadded, hkeys, _⟩ := foldl_affectedNext memo.entries affected
  have hround : affectedRound memo affected = affected ++ added := hadded
  rw [hround] at h ⊢
  obtain ⟨k, rest, rfl⟩ := List.exists_cons_of_ne_nil
    (show added ≠ [] by rintro rfl; simp at h)
  have hk := hkeys k List.mem_cons_self
  have hsub : (memo.keys.filter fun j => decide (j ∉ affected ++ k :: rest)).Sublist
      (memo.keys.filter fun j => decide (j ∉ affected)) :=
    List.monotone_filter_right _ fun j hj => by
      simp only [List.mem_append, not_or, decide_eq_true_eq] at hj ⊢
      exact hj.1
  refine lt_of_le_of_ne hsub.length_le fun heq => ?_
  have hmem : k ∈ memo.keys.filter fun j => decide (j ∉ affected) :=
    List.mem_filter.mpr ⟨hk.1, decide_eq_true hk.2⟩
  rw [← hsub.eq_of_length heq] at hmem
  simp at hmem

/-- A pass that adds no key finds every dependent of the affected keys among them. -/
theorem affectedRound_closed {memo : Dict K (SnapshotValue K V)} {affected : List K}
    (h : (affectedRound memo affected).length = affected.length) :
    AffectedClosed memo affected := by
  obtain ⟨added, hadded, _, hall⟩ := foldl_affectedNext memo.entries affected
  have hround : affectedRound memo affected = affected ++ added := hadded
  have hnil : added = [] := by
    rw [hround, List.length_append] at h
    exact List.length_eq_zero_iff.mp (by omega)
  exact fun k v hk => hall hnil (k, v) (Dict.mem_entries.mpr hk)

theorem mem_affectedRound {memo : Dict K (SnapshotValue K V)} {affected : List K} {k : K}
    (h : k ∈ affected) : k ∈ affectedRound memo affected := by
  obtain ⟨added, hadded, _, _⟩ := foldl_affectedNext memo.entries affected
  have hround : affectedRound memo affected = affected ++ added := hadded
  rw [hround]
  exact List.mem_append_left _ h

/-- The `while` loop: a pass that adds no key is the last one. -/
inductive AffectedReturns (memo : Dict K (SnapshotValue K V)) : List K → List K → Prop
  | unchanged (affected : List K) : (affectedRound memo affected).length = affected.length →
      AffectedReturns memo affected affected
  | changed (affected result : List K) : (affectedRound memo affected).length ≠ affected.length →
      AffectedReturns memo (affectedRound memo affected) result →
      AffectedReturns memo affected result

/-- With a pass for every memo key that is not affected yet the loop returns. -/
theorem affectedLoop_returns (memo : Dict K (SnapshotValue K V)) :
    ∀ (fuel : ℕ) (affected : List K),
      (memo.keys.filter fun k => decide (k ∉ affected)).length < fuel →
      AffectedReturns memo affected (affectedLoop memo fuel affected)
  | 0, _, h => absurd h (Nat.not_lt_zero _)
  | fuel + 1, affected, h => by
      rw [affectedLoop]
      split
      · rename_i hlen
        exact .unchanged affected hlen
      · rename_i hlen
        have hfewer := affectedRound_fewer hlen
        exact .changed affected _ hlen (affectedLoop_returns memo fuel _ (by omega))

theorem affectedKeysFromMemo_returns (memo : Dict K (SnapshotValue K V)) (requested : List K) :
    AffectedReturns memo requested (affectedKeysFromMemo requested memo) := by
  have hle := List.length_filter_le (fun k => decide (k ∉ requested)) memo.keys
  have hsize : memo.keys.length = memo.size := List.length_map _
  exact affectedLoop_returns memo (memo.size + 1) requested (by omega)

/-- The loop returns a closed set around what it started with. -/
theorem AffectedReturns.closed {memo : Dict K (SnapshotValue K V)} {affected result : List K}
    (h : AffectedReturns memo affected result) :
    AffectedClosed memo result ∧ ∀ k ∈ affected, k ∈ result := by
  induction h with
  | unchanged affected hlen => exact ⟨affectedRound_closed hlen, fun k hk => hk⟩
  | changed affected result _ _ ih => exact ⟨ih.1, fun k hk => ih.2 k (mem_affectedRound hk)⟩

/-- It adds only what every closed set around what it started with has. -/
theorem AffectedReturns.least {memo : Dict K (SnapshotValue K V)} {affected result : List K}
    (h : AffectedReturns memo affected result) : ∀ k ∈ result, Reached memo affected k := by
  induction h with
  | unchanged affected _ => exact fun k hk => ⟨k, hk, .refl⟩
  | changed affected result _ _ ih =>
    intro k hk
    obtain ⟨r, hr, hpath⟩ := ih k hk
    have hstart : Reached memo affected r := affectedRound_sound (fun j hj => ⟨j, hj, .refl⟩) r hr
    obtain ⟨r', hr', hpath'⟩ := hstart
    exact ⟨r', hr', hpath'.trans hpath⟩

theorem AffectedReturns.unique {memo : Dict K (SnapshotValue K V)}
    {affected result result' : List K} (h : AffectedReturns memo affected result)
    (h' : AffectedReturns memo affected result') : result = result' := by
  induction h with
  | unchanged affected hlen =>
    cases h' with
    | unchanged => rfl
    | changed _ _ hne => exact absurd hlen hne
  | changed affected result hne _ ih =>
    cases h' with
    | unchanged _ hlen => exact absurd hlen hne
    | changed _ _ _ hrest => exact ih hrest

/-- Only keys that the selected ones reach are affected. -/
theorem affectedKeysFromMemo_sound {memo : Dict K (SnapshotValue K V)} {selected : List K} {k : K}
    (h : k ∈ affectedKeysFromMemo selected memo) : Reached memo selected k :=
  (affectedKeysFromMemo_returns memo selected).least k h

/-- Every key that the selected ones reach is affected. -/
theorem affectedKeysFromMemo_complete {memo : Dict K (SnapshotValue K V)} {selected : List K} {k : K}
    (h : Reached memo selected k) : k ∈ affectedKeysFromMemo selected memo := by
  obtain ⟨r, hr, hpath⟩ := h
  obtain ⟨hclosed, hsub⟩ := (affectedKeysFromMemo_returns memo selected).closed
  induction hpath with
  | refl => exact hsub r hr
  | tail _ hstep ih =>
    obtain ⟨v, hv, hd⟩ := hstep
    rcases hclosed _ v hv with hk | hnone
    · exact hk
    · exact absurd ih (hnone _ hd)

/-- Sets that have the requested keys and every memo key with a recorded dependency among them. -/
def dependentClosed (requested : List K) (memo : Dict K (SnapshotValue K V)) : Set (Set K) :=
  {S | (∀ k ∈ requested, k ∈ S) ∧
    ∀ k v, memo.get? k = some v → (∃ d ∈ v.dependencyVersions.keys, d ∈ S) → k ∈ S}

theorem reached_of_closed {requested : List K} {memo : Dict K (SnapshotValue K V)} {S : Set K}
    (hS : S ∈ dependentClosed requested memo) {k : K} (h : Reached memo requested k) : k ∈ S := by
  obtain ⟨r, hr, hpath⟩ := h
  induction hpath with
  | refl => exact hS.1 r hr
  | tail _ hstep ih =>
    obtain ⟨v, hv, hd⟩ := hstep
    exact hS.2 _ v hv ⟨_, hd, ih⟩

/-- The loop returns the least set with the requested keys and their dependents, and only that one.
The order in which it scans the memo does not matter. -/
theorem affected_keys_closure (memo : Dict K (SnapshotValue K V)) (requested : List K) :
    AffectedReturns memo requested (affectedKeysFromMemo requested memo) ∧
    (∀ result, AffectedReturns memo requested result →
      result = affectedKeysFromMemo requested memo) ∧
    IsLeast (dependentClosed requested memo) {k | k ∈ affectedKeysFromMemo requested memo} ∧
    ∀ memo' : Dict K (SnapshotValue K V), memo'.entries.Perm memo.entries →
      ∀ k, k ∈ affectedKeysFromMemo requested memo' ↔ k ∈ affectedKeysFromMemo requested memo := by
  have hreturns := affectedKeysFromMemo_returns memo requested
  refine ⟨hreturns, fun result h => h.unique hreturns, ⟨⟨?_, ?_⟩, ?_⟩, ?_⟩
  · exact hreturns.closed.2
  · rintro k v hv ⟨d, hd, hmem⟩
    rcases hreturns.closed.1 k v hv with hk | hnone
    · exact hk
    · exact absurd hmem (hnone d hd)
  · exact fun S hS k hk => reached_of_closed hS (affectedKeysFromMemo_sound hk)
  · intro memo' hperm k
    have hget : ∀ k, memo'.get? k = memo.get? k := by
      intro k
      ext v
      rw [← Dict.mem_entries, ← Dict.mem_entries]
      exact hperm.mem_iff
    have hreached : Reached memo' requested k ↔ Reached memo requested k := by
      simp only [Reached, funext fun d => funext fun k => propext
        (show RecordsDependency memo' d k ↔ RecordsDependency memo d k by
          simp only [RecordsDependency, hget])]
    exact ⟨fun h => affectedKeysFromMemo_complete (hreached.mp (affectedKeysFromMemo_sound h)),
      fun h => affectedKeysFromMemo_complete (hreached.mpr (affectedKeysFromMemo_sound h))⟩

/-- Keys 1 and 2 depend on each other, and key 2 also on key 0. -/
def mutualEntries : List (ℕ × SnapshotValue ℕ ℕ) :=
  [(2, ⟨2, 7, "derived", 0, 0, 2, false, false, 0, 0, (Dict.empty.set 1 1).set 0 0⟩),
    (1, ⟨1, 6, "derived", 0, 0, 1, false, false, 0, 0, Dict.empty.set 2 2⟩),
    (0, ⟨0, 5, "plain", 0, 0, 0, false, false, 0, 0, .empty⟩)]

/-- A cycle of dependencies, scanned in both orders. -/
theorem affected_keys_closure_mutual :
    affectedKeysFromMemo [0] ⟨mutualEntries, by decide⟩ = [0, 2, 1] ∧
      ∀ k, k ∈ affectedKeysFromMemo [0] ⟨mutualEntries.reverse, by decide⟩ ↔
        k ∈ affectedKeysFromMemo [0] ⟨mutualEntries, by decide⟩ :=
  ⟨by decide +kernel, (affected_keys_closure ⟨mutualEntries, by decide⟩ [0]).2.2.2 _
    (List.reverse_perm mutualEntries)⟩

end

/-! ## Calls -/

/-- Why an await did not deliver. -/
inductive Interrupt
  | deadline
  | cancelled
  | error
  deriving DecidableEq, Repr

/-- What one `_resolve_many` call delivers: a value or an error for exactly the keys requested. -/
structure ResolveOutcome (K V : Type) [DecidableEq K] where
  keys : List K
  values : Dict K (SnapshotValue K V)
  errors : Dict K (Error K)
  memo : Dict K (SnapshotValue K V)
  covers : ∀ k, k ∈ keys ↔ k ∈ values.keys ∨ k ∈ errors.keys
  disjoint : ∀ k, k ∈ values.keys → k ∉ errors.keys

/-- `SnapshotRequest`; the acceptance policy enters as the decision it takes. -/
structure SnapshotRequest (K V : Type) where
  required : List K
  optional : List K
  consistencyPolicy : Option SnapshotConsistencyPolicy
  acceptancePolicy : Option (Dict K (SnapshotValue K V) → Bool)

inductive SessionError (K : Type)
  | sessionClosed
  | value
  | build (keys : List K)
  | consistency
  | acceptance
  | deadline
  | other
  deriving DecidableEq, Repr

/-- How the last call ended. `transient` are the errors of a revalidation that kept the state. -/
inductive CallOutcome (K V : Type)
  | returned (resources : Dict K (SnapshotValue K V)) (errors transient : Dict K (Error K))
  | raised (error : SessionError K)
  | cancelled

section
variable (K V : Type) [DecidableEq K]

structure ResolveCall where
  requested : List K
  pending : List K
  strict : Bool
  request : Option (SnapshotRequest K V)
  candidateResources : Dict K (SnapshotValue K V)
  candidateErrors : Dict K (Error K)

structure RevalidateCall where
  requested : List K
  affected : List K
  targets : List K
  strict : Bool
  forceRefresh : Bool
  consistencyPolicy : Option SnapshotConsistencyPolicy
  acceptancePolicy : Option (Dict K (SnapshotValue K V) → Bool)

/-- The loop state of `_retry_inconsistent_sources`. -/
structure RetryState where
  values : Dict K (SnapshotValue K V)
  memo : Dict K (SnapshotValue K V)
  attempted : List (K × String)
  targets : List K
  oldestKey : K

/-- The await at which the call that holds the session lock stands. -/
inductive CallPhase
  | resolving (call : ResolveCall K V)
  | delivering (call : ResolveCall K V)
  | lateDelivering (call : ResolveCall K V)
  | viewing
  | staging (call : RevalidateCall K V)
  | reporting (call : RevalidateCall K V) (errors : Dict K (Error K))
  | retrying (call : RevalidateCall K V) (retry : RetryState K V)
  | rejecting (error : SessionError K) (call : RevalidateCall K V)
  | committing (call : RevalidateCall K V) (resources : Dict K (SnapshotValue K V))
      (errors : Dict K (Error K)) (memo : Dict K (SnapshotValue K V))

/-- One `SnapshotSession`. `leftovers` are keys that producers of abandoned work still resolve. -/
structure Session where
  hasDeadline : Bool
  closed : Bool
  resources : Dict K (SnapshotValue K V)
  errors : Dict K (Error K)
  memo : Dict K (SnapshotValue K V)
  leftovers : List K
  phase : Option (CallPhase K V)
  last : Option (CallOutcome K V)

/-- Calls take the free lock; `resolved` to `undelivered` end an await of the call in progress. -/
inductive SessionEvent
  | resolve (keys : List K) (strict retryErrors : Bool)
  | resolveRequest (request : SnapshotRequest K V) (retryErrors : Bool)
  | revalidate (keys : List K) (strict forceRefresh : Bool)
      (consistencyPolicy : Option SnapshotConsistencyPolicy)
      (acceptancePolicy : Option (Dict K (SnapshotValue K V) → Bool))
  | snapshotAsync
  | snapshot
  | close
  | resolved (outcome : ResolveOutcome K V) (leftovers : List K)
  | unresolved (interrupt : Interrupt) (memo : Dict K (SnapshotValue K V)) (leftovers : List K)
  | delivered
  | undelivered (interrupt : Interrupt)
  | stray (key : K) (value : SnapshotValue K V)

end

section
variable {K V : Type} [DecidableEq K]

/-- A session as `SnapshotBuilder.session` creates it. -/
def Session.new (hasDeadline : Bool) : Session K V :=
  ⟨hasDeadline, false, .empty, .empty, .empty, [], none, none⟩

def Session.finish (s : Session K V) (outcome : CallOutcome K V) : Session K V :=
  { s with phase := none, last := some outcome }

def Session.await (s : Session K V) (phase : CallPhase K V) : Session K V :=
  { s with phase := some phase }

/-- How an await ends that the deadline may only reach when the session has one. -/
def Session.interrupted (s : Session K V) (enforceDeadline : Bool) (interrupt : Interrupt)
    (onDeadline : Session K V) : Option (Session K V) :=
  match interrupt with
  | .deadline => if enforceDeadline && s.hasDeadline then some onDeadline else none
  | .cancelled => some (s.finish .cancelled)
  | .error => some (s.finish (.raised .other))

/-! ## Resolve -/

def ResolveCall.requestedErrors (c : ResolveCall K V) : Dict K (Error K) :=
  c.candidateErrors.filter fun k => decide (k ∈ c.requested)

def Session.beginResolve (s : Session K V) (keys : List K) (strict retryErrors : Bool)
    (request : Option (SnapshotRequest K V)) : Session K V :=
  let requested := Dict.fromKeys keys
  if s.closed then s.finish (.raised .sessionClosed)
  else if requested = [] then s.finish (.raised .value)
  else
    let errors := if retryErrors then s.errors.filter fun k => decide (k ∉ requested) else s.errors
    let pending := requested.filter fun k => decide (k ∉ s.resources.keys ∧ k ∉ errors.keys)
    let call := ⟨requested, pending, strict, request, s.resources, errors⟩
    if pending = [] then s.await (.delivering call) else s.await (.resolving call)

/-- What `resolve_request` decides about the snapshot that `resolve` returned. -/
def requestOutcome (request : SnapshotRequest K V) (resources : Dict K (SnapshotValue K V))
    (errors : Dict K (Error K)) : CallOutcome K V :=
  let failed := request.required.filter fun k => decide (k ∈ errors.keys)
  let checked (p : SnapshotConsistencyPolicy) :=
    if p.includeOptionalResources then request.required ++ request.optional else request.required
  if failed ≠ [] then .raised (.build failed)
  else if request.consistencyPolicy.any fun p =>
      (findObservationSkewViolation resources (checked p) p).isSome then .raised .consistency
  else if request.acceptancePolicy.any fun accepts => !accepts resources then .raised .acceptance
  else .returned resources errors .empty

def ResolveCall.outcome (c : ResolveCall K V) (resources : Dict K (SnapshotValue K V))
    (errors : Dict K (Error K)) : CallOutcome K V :=
  match c.request with
  | none => .returned resources errors .empty
  | some request => requestOutcome request resources errors

/-- The deadline branch of `resolve`: strict raises, otherwise the state so far is kept. -/
def Session.resolveDeadline (s : Session K V) (c : ResolveCall K V) : Session K V :=
  if c.strict then s.finish (.raised (.build c.requested))
  else { s with
    resources := c.candidateResources
    errors := c.candidateErrors.update (deadlineResolutionErrors c.pending)
    phase := some (.lateDelivering c) }

def Session.resolveDelivered (s : Session K V) (c : ResolveCall K V) : Session K V :=
  let installed := { s with resources := c.candidateResources, errors := c.candidateErrors }
  if c.requestedErrors.keys ≠ [] ∧ c.strict = true then
    installed.finish (.raised (.build c.requestedErrors.keys))
  else installed.finish (c.outcome c.candidateResources c.candidateErrors)

/-! ## Revalidate -/

def Session.beginRevalidate (s : Session K V) (keys : List K) (strict forceRefresh : Bool)
    (consistencyPolicy : Option SnapshotConsistencyPolicy)
    (acceptancePolicy : Option (Dict K (SnapshotValue K V) → Bool)) : Session K V :=
  let requested := Dict.fromKeys keys
  if s.closed then s.finish (.raised .sessionClosed)
  else if requested = [] then s.finish (.raised .value)
  else if (requested.filter fun k => decide (k ∉ s.memo.keys)) ≠ [] then
    s.finish (.raised .value)
  else
    let affected := affectedKeysFromMemo requested s.memo
    let dependents :=
      s.resources.keys.filter fun k => decide (k ∈ affected ∧ k ∉ requested)
    s.await (.staging ⟨requested, affected, Dict.fromKeys (requested ++ dependents), strict,
      forceRefresh, consistencyPolicy, acceptancePolicy⟩)

/-- `candidate_resources[key] = values[key]` for the visible targets. -/
def replaceTargets (values : Dict K (SnapshotValue K V)) :
    List K → Dict K (SnapshotValue K V) → Option (Dict K (SnapshotValue K V))
  | [], resources => some resources
  | key :: targets, resources =>
    if key ∈ resources.keys then
      (values.get? key).bind fun value => replaceTargets values targets (resources.set key value)
    else replaceTargets values targets resources

/-- The candidate state takes exactly the visible targets from the staged values. -/
theorem replaceTargets_spec {values : Dict K (SnapshotValue K V)} :
    ∀ {targets : List K} {resources after : Dict K (SnapshotValue K V)},
      replaceTargets values targets resources = some after →
      (∀ k, after.get? k =
        if k ∈ targets ∧ k ∈ resources.keys then values.get? k else resources.get? k) ∧
      ∀ k ∈ targets, k ∈ resources.keys → ∃ v, values.get? k = some v
  | [], resources, after, h => by
      rw [replaceTargets, Option.some.injEq] at h
      subst h
      simp
  | key :: targets, resources, after, h => by
      rw [replaceTargets] at h
      by_cases hkey : key ∈ resources.keys
      · rw [if_pos hkey, Option.bind_eq_some_iff] at h
        obtain ⟨value, hvalue, hrest⟩ := h
        obtain ⟨hget, hsome⟩ := replaceTargets_spec hrest
        have hkeys : ∀ k, k ∈ (resources.set key value).keys ↔ k ∈ resources.keys := by
          intro k
          rw [Dict.mem_keys_set]
          exact ⟨fun h => h.elim (fun e => e ▸ hkey) id, Or.inr⟩
        constructor
        · intro k
          simp only [hget k, hkeys k, Dict.get?_set]
          by_cases hk : k = key
          · subst hk
            by_cases ht : k ∈ targets <;> simp [ht, hkey, hvalue]
          · simp [hk]
        · intro k hk hvisible
          rcases List.mem_cons.mp hk with rfl | hk
          · exact ⟨value, hvalue⟩
          · exact hsome k hk ((hkeys k).mpr hvisible)
      · rw [if_neg hkey] at h
        obtain ⟨hget, hsome⟩ := replaceTargets_spec h
        constructor
        · intro k
          rw [hget k]
          by_cases hk : k = key
          · subst hk
            simp [hkey]
          · simp [hk]
        · intro k hk hvisible
          rcases List.mem_cons.mp hk with rfl | hk
          · exact absurd hvisible hkey
          · exact hsome k hk hvisible

/-- The candidate state of a revalidation, its acceptance check and its delivery. -/
def Session.propose (s : Session K V) (c : RevalidateCall K V)
    (values memo : Dict K (SnapshotValue K V)) : Session K V :=
  match replaceTargets values c.targets s.resources with
  | none => s.finish (.raised .other)
  | some resources =>
    if c.acceptancePolicy.any fun accepts => !accepts resources then
      s.await (.rejecting .acceptance c)
    else s.await (.committing c resources
      (s.errors.filter fun k => decide (k ∉ c.targets)) memo)

/-- The head of the `while` loop of `_retry_inconsistent_sources`. -/
def Session.retry (s : Session K V) (c : RevalidateCall K V)
    (values memo : Dict K (SnapshotValue K V)) (attempted : List (K × String)) (oldestKey : K) :
    Session K V :=
  match values.get? oldestKey with
  | none => s.await (.rejecting .consistency c)
  | some oldest =>
    if oldest.source = "" ∨ (oldestKey, oldest.source) ∈ attempted then
      s.await (.rejecting .consistency c)
    else
      let affected := affectedKeysFromMemo [oldestKey] memo
      let targets := c.targets.filter fun k => decide (k ∈ affected)
      s.await (.retrying c ⟨values, memo, attempted ++ [(oldestKey, oldest.source)],
        if oldestKey ∈ targets then targets else oldestKey :: targets, oldestKey⟩)

/-- The consistency check of a staged resolution without errors. -/
def Session.checkConsistency (s : Session K V) (c : RevalidateCall K V)
    (values memo : Dict K (SnapshotValue K V)) (attempted : List (K × String)) : Session K V :=
  match c.consistencyPolicy.bind (findObservationSkewViolation values c.requested) with
  | none => s.propose c values memo
  | some violation =>
    if c.forceRefresh then s.retry c values memo attempted violation.oldestKey
    else s.await (.rejecting .consistency c)

def Session.commit (s : Session K V) (resources : Dict K (SnapshotValue K V))
    (errors : Dict K (Error K)) (memo : Dict K (SnapshotValue K V)) : Session K V :=
  { s with resources := resources, errors := errors, memo := memo }.finish
    (.returned resources errors .empty)

/-! ## Steps -/

def Session.onResolved (s : Session K V) (o : ResolveOutcome K V) (leftovers : List K) :
    Option (Session K V) :=
  match s.phase with
  | some (.resolving c) =>
    if o.keys = c.pending then
      some { s with
        memo := o.memo
        leftovers := s.leftovers ++ leftovers
        phase := some (.delivering { c with
          candidateResources := c.candidateResources.update o.values
          candidateErrors := c.candidateErrors.update o.errors }) }
    else none
  | some (.staging c) =>
    if o.keys = c.targets then
      if o.errors.entries = [] then some (s.checkConsistency c o.values o.memo [])
      else some (s.await (.reporting c o.errors))
    else none
  | some (.retrying c r) =>
    if o.keys = r.targets then
      if o.errors.entries = [] ∧ r.oldestKey ∈ o.values.keys then
        some (s.checkConsistency c (r.values.update o.values) o.memo r.attempted)
      else some (s.await (.rejecting .consistency c))
    else none
  | _ => none

def Session.onUnresolved (s : Session K V) (interrupt : Interrupt)
    (memo : Dict K (SnapshotValue K V)) (leftovers : List K) : Option (Session K V) :=
  match s.phase with
  | some (.resolving c) =>
    let s' := { s with memo := memo, leftovers := s.leftovers ++ leftovers }
    s'.interrupted true interrupt (s'.resolveDeadline c)
  | some (.staging c) => s.interrupted true interrupt (s.finish (.raised (.build c.requested)))
  | some (.retrying c _) => s.interrupted true interrupt (s.finish (.raised (.build c.requested)))
  | _ => none

def Session.onDelivered (s : Session K V) : Option (Session K V) :=
  match s.phase with
  | some (.delivering c) => some (s.resolveDelivered c)
  | some (.lateDelivering c) => some (s.finish (c.outcome s.resources s.errors))
  | some .viewing => some (s.finish (.returned s.resources s.errors .empty))
  | some (.reporting c errors) =>
    some (s.finish (if c.strict then .raised (.build errors.keys)
      else .returned s.resources (s.errors.update errors) errors))
  | some (.rejecting error _) => some (s.finish (.raised error))
  | some (.committing _ resources errors memo) => some (s.commit resources errors memo)
  | _ => none

def Session.onUndelivered (s : Session K V) (interrupt : Interrupt) : Option (Session K V) :=
  match s.phase with
  | some (.delivering c) =>
    s.interrupted (!errorsIncludeDeadline c.requestedErrors) interrupt (s.resolveDeadline c)
  | some (.lateDelivering _) => s.interrupted false interrupt s
  | some .viewing => s.interrupted true interrupt (s.finish (.raised .deadline))
  | some (.reporting c errors) =>
    s.interrupted (!errorsIncludeDeadline errors) interrupt
      (s.finish (.raised (.build c.requested)))
  | some (.rejecting _ c) => s.interrupted true interrupt (s.finish (.raised (.build c.requested)))
  | some (.committing c _ _ _) =>
    s.interrupted true interrupt (s.finish (.raised (.build c.requested)))
  | _ => none

/-- A call that needs the session lock waits until it is free. -/
def Session.locked (s : Session K V) (t : Session K V) : Option (Session K V) :=
  if s.phase.isNone then some t else none

def sessionStep (s : Session K V) : SessionEvent K V → Option (Session K V)
  | .resolve keys strict retryErrors => s.locked (s.beginResolve keys strict retryErrors none)
  | .resolveRequest request retryErrors =>
    s.locked (s.beginResolve (request.required ++ request.optional) false retryErrors
      (some request))
  | .revalidate keys strict forceRefresh consistencyPolicy acceptancePolicy =>
    s.locked (s.beginRevalidate keys strict forceRefresh consistencyPolicy acceptancePolicy)
  | .snapshotAsync => s.locked (s.await .viewing)
  | .snapshot => some s
  | .close => s.locked { s with closed := true }
  | .resolved outcome leftovers => s.onResolved outcome leftovers
  | .unresolved interrupt memo leftovers => s.onUnresolved interrupt memo leftovers
  | .delivered => s.onDelivered
  | .undelivered interrupt => s.onUndelivered interrupt
  | .stray key value =>
    if key ∈ s.leftovers then some { s with memo := s.memo.set key value } else none

end
end Coalestra
