import Coalestra.Orchestration.RevalidationPolicies

/-! # Requests that do not throw

`operational.py`: `try_resolve_request` resolves like `SnapshotSession.resolve_request` and then
collects what speaks against the snapshot, where the other stops at the first finding. Two runs of
the same session, one for each, go through the same awaits; the call in progress differs only in
the request it remembers. -/

namespace Coalestra
set_option autoImplicit false
set_option maxHeartbeats 250000

inductive SnapshotResultState
  | accepted
  | degraded
  | rejected
  deriving DecidableEq, Repr

/-- How `try_*_request` classifies partial snapshots. -/
structure RequestDegradationPolicy where
  minimumResolvedResources : ℕ := 1
  minimumResolvedRequiredResources : ℕ := 0
  failClosed : Bool := false
  rejectOnRequiredError : Bool := false
  rejectOnAcceptanceViolation : Bool := false
  rejectOnConsistencyViolation : Bool := false
  acceptedActions : List String := ["read", "evaluate", "act"]
  degradedActions : List String := ["read", "evaluate"]
  rejectedActions : List String := []
  metadata : List (String × String) := []

section
variable (K : Type) [DecidableEq K]

/-- `SnapshotRequest` with its acceptance policy spelled out. The fields after the data are the
checks of the constructor. -/
structure DeclaredRequest where
  required : List K
  optional : List K
  consistencyPolicy : Option SnapshotConsistencyPolicy
  acceptancePolicy : Option (SnapshotAcceptancePolicy K)
  required_nodup : required.Nodup
  optional_nodup : optional.Nodup
  disjoint : ∀ k ∈ required, k ∉ optional
  nonempty : required ++ optional ≠ []
  referenced : ∀ policy ∈ acceptancePolicy,
    ∀ k ∈ policy.resourceRules.keys ++ policy.requirements.flatMap (·.keys),
      k ∈ required ++ optional

/-- A result without its snapshot id, which the session fixes. -/
structure SnapshotResult (V : Type) where
  state : SnapshotResultState
  resources : Dict K (SnapshotValue K V)
  errors : Dict K (Error K)
  allowedActions : List String
  reason : String
  requiredErrors : Dict K (Error K)
  optionalErrors : Dict K (Error K)
  acceptanceViolations : List (SnapshotAcceptanceViolation K)
  consistencyViolation : Option (ObservationSkewViolation K)
  error : Option (SessionError K)
  metadata : List (String × String)

end

section
variable {K V : Type} [DecidableEq K]

/-- `SnapshotRequest.keys`. -/
def DeclaredRequest.keys (request : DeclaredRequest K) : List K :=
  request.required ++ request.optional

/-- The request as `resolve_request` decides it when its policies are evaluated at `now`. -/
def DeclaredRequest.decided (request : DeclaredRequest K) (now : ℚ)
    (freshnessPolicyFor : K → FreshnessPolicy) : SnapshotRequest K V :=
  ⟨request.required, request.optional, request.consistencyPolicy,
    request.acceptancePolicy.map fun policy =>
      acceptanceDecision policy request.required request.optional now freshnessPolicyFor⟩

/-- The keys whose skew the consistency policy bounds. -/
def DeclaredRequest.consistencyKeys (request : DeclaredRequest K)
    (policy : SnapshotConsistencyPolicy) : List K :=
  if policy.includeOptionalResources then request.keys else request.required

/-- `_find_consistency_violation`. -/
def DeclaredRequest.findConsistencyViolation (request : DeclaredRequest K)
    (resources : Dict K (SnapshotValue K V)) : Option (ObservationSkewViolation K) :=
  request.consistencyPolicy.bind fun p =>
    findObservationSkewViolation resources (request.consistencyKeys p) p

/-- `_find_acceptance_violations`. -/
def DeclaredRequest.findAcceptanceViolations (request : DeclaredRequest K)
    (resources : Dict K (SnapshotValue K V)) (now : ℚ) (freshnessPolicyFor : K → FreshnessPolicy) :
    List (SnapshotAcceptanceViolation K) :=
  match request.acceptancePolicy with
  | none => []
  | some p =>
    findSnapshotAcceptanceViolations resources request.required request.optional p now
      freshnessPolicyFor

/-- `reason_parts`: what speaks against the snapshot. -/
def DeclaredRequest.reasonParts (request : DeclaredRequest K)
    (resources : Dict K (SnapshotValue K V)) (errors : Dict K (Error K)) (now : ℚ)
    (freshnessPolicyFor : K → FreshnessPolicy) : List String :=
  (if (errors.filter fun k => decide (k ∈ request.required)).keys ≠ [] then ["required_errors"]
    else []) ++
  (if (errors.filter fun k => decide (k ∈ request.optional)).keys ≠ [] then ["optional_errors"]
    else []) ++
  (if (request.findConsistencyViolation resources).isSome then ["consistency_violation"]
    else []) ++
  (if request.findAcceptanceViolations resources now freshnessPolicyFor ≠ [] then
    ["acceptance_violation"] else [])

/-- `reject`: the snapshot is not even delivered as a degraded one. -/
def RequestDegradationPolicy.rejects (policy : RequestDegradationPolicy)
    (request : DeclaredRequest K) (resources : Dict K (SnapshotValue K V))
    (errors : Dict K (Error K)) (now : ℚ) (freshnessPolicyFor : K → FreshnessPolicy) : Bool :=
  let resolvedRequired := request.required.countP fun k => decide (k ∈ resources.keys)
  policy.failClosed
    || decide (resources.size < policy.minimumResolvedResources)
    || decide (resolvedRequired < policy.minimumResolvedRequiredResources)
    || (decide ((errors.filter fun k => decide (k ∈ request.required)).keys ≠ [])
      && policy.rejectOnRequiredError)
    || (!(request.findAcceptanceViolations resources now freshnessPolicyFor).isEmpty
      && policy.rejectOnAcceptanceViolation)
    || ((request.findConsistencyViolation resources).isSome
      && policy.rejectOnConsistencyViolation)

/-- `_classify_snapshot_result`. -/
def classifySnapshotResult (request : DeclaredRequest K) (resources : Dict K (SnapshotValue K V))
    (errors : Dict K (Error K)) (policy : RequestDegradationPolicy) (now : ℚ)
    (freshnessPolicyFor : K → FreshnessPolicy) (baseError : Option (SessionError K)) :
    SnapshotResult K V :=
  let reasonParts := request.reasonParts resources errors now freshnessPolicyFor
  if reasonParts = [] then
    { state := .accepted
      resources := resources
      errors := errors
      allowedActions := policy.acceptedActions
      reason := "accepted"
      requiredErrors := .empty
      optionalErrors := .empty
      acceptanceViolations := []
      consistencyViolation := none
      error := none
      metadata := policy.metadata }
  else
    let reject := policy.rejects request resources errors now freshnessPolicyFor
    { state := if reject then .rejected else .degraded
      resources := resources
      errors := errors
      allowedActions := if reject then policy.rejectedActions else policy.degradedActions
      reason := ",".intercalate reasonParts
      requiredErrors := errors.filter fun k => decide (k ∈ request.required)
      optionalErrors := errors.filter fun k => decide (k ∈ request.optional)
      acceptanceViolations := request.findAcceptanceViolations resources now freshnessPolicyFor
      consistencyViolation := request.findConsistencyViolation resources
      error := if reject then baseError else none
      metadata := policy.metadata }

/-- The exception is a `SnapshotBuildError`; the policy errors are subclasses of it. -/
def SessionError.isSnapshotBuildError : SessionError K → Bool
  | .build _ => true
  | .consistency => true
  | .acceptance => true
  | _ => false

/-- The name of the exception when it is another `CoalestraError`; `other` is that of whatever else
was raised, if it is one. -/
def SessionError.coalestraName (other : Option String) : SessionError K → Option String
  | .sessionClosed => some "SessionClosedError"
  | .deadline => some "SnapshotDeadlineExceededError"
  | .other => other
  | _ => none

/-- What `try_resolve_request` knows besides the outcome of `session.resolve`: its policy, the clock
and the freshness policies at the classification, the snapshot and the errors of a raised
`SnapshotBuildError`, and the name of any other `CoalestraError`. -/
structure TryContext (K V : Type) [DecidableEq K] where
  policy : RequestDegradationPolicy
  now : ℚ
  freshnessPolicyFor : K → FreshnessPolicy
  attached : SessionError K → Option (Dict K (SnapshotValue K V) × Dict K (Error K))
  reported : SessionError K → Dict K (Error K)
  other : Option String

/-- `try_resolve_request` after `session.resolve` has ended; `none` when the exception goes on. -/
def tryResolveRequest (request : DeclaredRequest K) (context : TryContext K V) :
    CallOutcome K V → Option (SnapshotResult K V)
  | .returned resources errors _ =>
    some (classifySnapshotResult request resources errors context.policy context.now
      context.freshnessPolicyFor none)
  | .raised error =>
    if error.isSnapshotBuildError then
      let snapshot := (context.attached error).getD (.empty, context.reported error)
      some (classifySnapshotResult request snapshot.1 snapshot.2 context.policy context.now
        context.freshnessPolicyFor (some error))
    else (error.coalestraName context.other).map fun name =>
      { state := .rejected
        resources := .empty
        errors := .empty
        allowedActions := context.policy.rejectedActions
        reason := name
        requiredErrors := .empty
        optionalErrors := .empty
        acceptanceViolations := []
        consistencyViolation := none
        error := some error
        metadata := context.policy.metadata }
  | .cancelled => none

/-! ## The same run with a request -/

/-- The outcome of `resolve` as `resolve_request` passes it on. -/
def CallOutcome.forRequest (request : SnapshotRequest K V) : CallOutcome K V → CallOutcome K V
  | .returned resources errors _ => requestOutcome request resources errors
  | outcome => outcome

def CallPhase.forRequest (request : SnapshotRequest K V) : CallPhase K V → CallPhase K V
  | .resolving c => .resolving { c with request := some request }
  | .delivering c => .delivering { c with request := some request }
  | .lateDelivering c => .lateDelivering { c with request := some request }
  | phase => phase

/-- The session as it is when the call was `resolve_request` instead of `resolve`. -/
def Session.forRequest (request : SnapshotRequest K V) (s : Session K V) : Session K V :=
  match s.phase with
  | none => { s with last := s.last.map (CallOutcome.forRequest request) }
  | some phase => { s with phase := some (phase.forRequest request) }

/-- The call is a `resolve` that is not strict: it remembers no request, returns no transient
errors and raises no `SnapshotBuildError`. -/
def Lenient (t : Session K V) : Prop :=
  match t.phase with
  | none => ∀ outcome, t.last = some outcome → match outcome with
    | .returned _ _ transient => transient = .empty
    | .raised error => error.isSnapshotBuildError = false
    | .cancelled => True
  | some (.resolving c) => c.request = none ∧ c.strict = false
  | some (.delivering c) => c.request = none ∧ c.strict = false
  | some (.lateDelivering c) => c.request = none ∧ c.strict = false
  | _ => False

section
variable {t u : Session K V} {request : SnapshotRequest K V}

theorem forRequest_finish (outcome : CallOutcome K V) :
    (t.finish outcome).forRequest request = t.finish (outcome.forRequest request) := rfl

theorem forRequest_busy (h : t.phase.isSome) : (t.forRequest request).phase.isSome := by
  unfold Session.forRequest
  cases hp : t.phase with
  | none => rw [hp] at h; cases h
  | some phase => rfl

/-- An await that is cut short ends both calls in the same way. -/
theorem forRequest_interrupted {enforce : Bool} {interrupt : Interrupt} {late late' : Session K V}
    (hlate : late.forRequest request = late' ∧ Lenient late)
    (h : t.interrupted enforce interrupt late = some u) {t' : Session K V}
    (ht : ∀ outcome, t'.finish outcome = t.finish outcome) (hd : t'.hasDeadline = t.hasDeadline) :
    t'.interrupted enforce interrupt late' = some (u.forRequest request) ∧ Lenient u := by
  cases interrupt with
  | deadline =>
    simp only [Session.interrupted] at h ⊢
    rw [hd]
    split at h
    · rename_i hc
      cases h
      rw [if_pos hc, hlate.1]
      exact ⟨rfl, hlate.2⟩
    · cases h
  | cancelled =>
    cases h
    refine ⟨congrArg some (ht _), fun outcome ho => ?_⟩
    cases ho
    trivial
  | error =>
    cases h
    refine ⟨congrArg some (ht _), fun outcome ho => ?_⟩
    cases ho
    rfl

/-- One step of the plain call is one step of the call with its request. -/
theorem forRequest_step {e : SessionEvent K V} (h : Lenient t) (hbusy : t.phase.isSome)
    (hu : sessionStep t e = some u) :
    sessionStep (t.forRequest request) e = some (u.forRequest request) ∧ Lenient u := by
  obtain ⟨phase, hphase⟩ := Option.isSome_iff_exists.mp hbusy
  have hlocked : ∀ t' : Session K V, t.locked t' ≠ some u := by
    intro t' ht'
    simp [Session.locked, hphase] at ht'
  obtain ⟨deadline, closed, resources, errors, memo, left, ph, last⟩ := t
  dsimp only at hphase
  subst hphase
  cases e with
  | resolve keys strict retryErrors => exact absurd hu (hlocked _)
  | resolveRequest request retryErrors => exact absurd hu (hlocked _)
  | revalidate keys strict forceRefresh p q => exact absurd hu (hlocked _)
  | snapshotAsync => exact absurd hu (hlocked _)
  | close => exact absurd hu (hlocked _)
  | snapshot =>
    cases hu
    exact ⟨rfl, h⟩
  | stray key value =>
    simp only [sessionStep] at hu
    split at hu
    · rename_i hleft
      cases hu
      refine ⟨?_, by cases phase <;> exact h⟩
      simp only [Session.forRequest, sessionStep]
      exact if_pos hleft
    · cases hu
  | resolved o leftovers =>
    simp only [sessionStep, Session.onResolved] at hu
    cases phase with
    | resolving c =>
      dsimp only at hu
      split at hu
      · rename_i hkeys
        cases hu
        refine ⟨?_, h⟩
        simp only [Session.forRequest, CallPhase.forRequest, sessionStep, Session.onResolved,
          if_pos hkeys]
      · cases hu
    | delivering c => cases hu
    | lateDelivering c => cases hu
    | _ => exact h.elim
  | unresolved interrupt memo' leftovers =>
    simp only [sessionStep, Session.onUnresolved] at hu
    cases phase with
    | resolving c =>
      refine forRequest_interrupted ?_ hu (fun _ => rfl) rfl
      unfold Session.resolveDeadline
      rw [if_neg (by rw [h.2]; decide)]
      exact ⟨by rw [if_neg (by rw [h.2]; decide)]; rfl, h⟩
    | delivering c => cases hu
    | lateDelivering c => cases hu
    | _ => exact h.elim
  | delivered =>
    simp only [sessionStep, Session.onDelivered] at hu
    cases phase with
    | delivering c =>
      cases hu
      simp only [Session.forRequest, CallPhase.forRequest, sessionStep, Session.onDelivered,
        Session.resolveDelivered, h.2, Bool.false_eq_true, and_false, if_false]
      refine ⟨?_, fun outcome ho => ?_⟩
      · simp only [ResolveCall.outcome, h.1]
        rfl
      · rw [ResolveCall.outcome, h.1] at ho
        cases ho
        rfl
    | lateDelivering c =>
      cases hu
      refine ⟨?_, fun outcome ho => ?_⟩
      · simp only [Session.forRequest, CallPhase.forRequest, sessionStep, Session.onDelivered,
          ResolveCall.outcome, h.1]
        rfl
      · rw [ResolveCall.outcome, h.1] at ho
        cases ho
        rfl
    | resolving c => cases hu
    | _ => exact h.elim
  | undelivered interrupt =>
    simp only [sessionStep, Session.onUndelivered] at hu
    cases phase with
    | delivering c =>
      refine forRequest_interrupted ?_ hu (fun _ => rfl) rfl
      unfold Session.resolveDeadline
      rw [if_neg (by rw [h.2]; decide)]
      exact ⟨by rw [if_neg (by rw [h.2]; decide)]; rfl, h⟩
    | lateDelivering c =>
      exact forRequest_interrupted ⟨rfl, h⟩ hu (fun _ => rfl) rfl
    | resolving c => cases hu
    | _ => exact h.elim

/-- A run of the plain call is a run of the call with its request. -/
theorem forRequest_run {es : List (SessionEvent K V)}
    (hrun : RunOf sessionStep (fun w _ => w.phase.isSome) t es u) (h : Lenient t) :
    RunOf sessionStep (fun w _ => w.phase.isSome) (t.forRequest request) es
      (u.forRequest request) ∧ Lenient u := by
  induction hrun with
  | nil s => exact ⟨.nil _, h⟩
  | cons hbusy hstep _ ih =>
    obtain ⟨hnext, hlenient⟩ := @forRequest_step _ _ _ _ _ request _ h hbusy hstep
    obtain ⟨hrest, hend⟩ := ih hlenient
    exact ⟨.cons (forRequest_busy hbusy) hnext hrest, hend⟩

/-- Both calls begin in the same way. -/
theorem forRequest_begin {s : Session K V} {retryErrors : Bool}
    (h : sessionStep s (.resolve (request.required ++ request.optional) false retryErrors) =
      some t) :
    sessionStep s (.resolveRequest request retryErrors) = some (t.forRequest request) ∧
      Lenient t := by
  simp only [sessionStep, Session.locked] at h ⊢
  split at h
  · rename_i hidle
    rw [if_pos hidle]
    cases h
    unfold Session.beginResolve
    dsimp only
    split
    · refine ⟨rfl, fun outcome ho => ?_⟩
      cases ho
      rfl
    · split
      · refine ⟨rfl, fun outcome ho => ?_⟩
        cases ho
        rfl
      · generalize (if retryErrors = true then s.errors.filter fun k =>
          decide (k ∉ Dict.fromKeys (request.required ++ request.optional)) else s.errors) = errors
        split
        · exact ⟨rfl, rfl, rfl⟩
        · exact ⟨rfl, rfl, rfl⟩
  · cases h

end

/-! ## Classification -/

section
variable {request : DeclaredRequest K} {resources : Dict K (SnapshotValue K V)}
  {errors : Dict K (Error K)} {policy : RequestDegradationPolicy} {now : ℚ}
  {freshnessPolicyFor : K → FreshnessPolicy} {baseError : Option (SessionError K)}

/-- The result carries everything that speaks against this snapshot. -/
structure SnapshotResult.Carries (result : SnapshotResult K V) (request : DeclaredRequest K)
    (now : ℚ) (freshnessPolicyFor : K → FreshnessPolicy) : Prop where
  required : ∀ k ∈ request.required, result.requiredErrors.get? k = result.errors.get? k
  optional : ∀ k ∈ request.optional, result.optionalErrors.get? k = result.errors.get? k
  consistency : ∀ p ∈ request.consistencyPolicy, result.consistencyViolation =
    findObservationSkewViolation result.resources (request.consistencyKeys p) p
  acceptance : ∀ p ∈ request.acceptancePolicy, result.acceptanceViolations =
    findSnapshotAcceptanceViolations result.resources request.required request.optional p now
      freshnessPolicyFor

theorem classify_snapshot :
    (classifySnapshotResult request resources errors policy now freshnessPolicyFor
      baseError).resources = resources ∧
    (classifySnapshotResult request resources errors policy now freshnessPolicyFor
      baseError).errors = errors := by
  unfold classifySnapshotResult
  dsimp only
  split <;> exact ⟨rfl, rfl⟩

theorem classify_not_degraded (h : policy.failClosed = true) :
    (classifySnapshotResult request resources errors policy now freshnessPolicyFor
      baseError).state ≠ .degraded := by
  have hrejects : policy.rejects request resources errors now freshnessPolicyFor = true := by
    simp [RequestDegradationPolicy.rejects, h]
  unfold classifySnapshotResult
  dsimp only
  split
  · exact nofun
  · exact nofun

theorem classify_carries (h : (classifySnapshotResult request resources errors policy now
      freshnessPolicyFor baseError).state ≠ .accepted) :
    (classifySnapshotResult request resources errors policy now freshnessPolicyFor
      baseError).Carries request now freshnessPolicyFor := by
  unfold classifySnapshotResult at h ⊢
  dsimp only at h ⊢
  split at h
  · exact absurd rfl h
  · rename_i hparts
    rw [if_neg hparts]
    refine ⟨fun k hk => ?_, fun k hk => ?_, fun p hp => ?_, fun p hp => ?_⟩
    · simp [Dict.get?_filter, hk]
    · simp [Dict.get?_filter, hk]
    · rw [Option.mem_def] at hp
      simp [DeclaredRequest.findConsistencyViolation, hp]
    · rw [Option.mem_def] at hp
      simp [DeclaredRequest.findAcceptanceViolations, hp]

theorem classify_accepted :
    (classifySnapshotResult request resources errors policy now freshnessPolicyFor
      baseError).state = .accepted ↔
      request.reasonParts resources errors now freshnessPolicyFor = [] := by
  unfold classifySnapshotResult
  dsimp only
  split
  · rename_i h
    simp [h]
  · rename_i h
    refine iff_of_false ?_ h
    dsimp only
    split <;> exact nofun

theorem filter_keys_eq_nil {keys : List K} :
    (errors.filter fun k => decide (k ∈ keys)).keys = [] ↔ ∀ k ∈ keys, k ∉ errors.keys := by
  rw [List.eq_nil_iff_forall_not_mem]
  refine forall_congr' fun k => ?_
  rw [Dict.mem_keys, Dict.mem_keys, Dict.get?_filter]
  by_cases hk : k ∈ keys <;> simp [hk]

theorem reasonParts_eq_nil : request.reasonParts resources errors now freshnessPolicyFor = [] ↔
    (∀ k ∈ request.required, k ∉ errors.keys) ∧ (∀ k ∈ request.optional, k ∉ errors.keys) ∧
      request.findConsistencyViolation resources = none ∧
      request.findAcceptanceViolations resources now freshnessPolicyFor = [] := by
  have hpart : ∀ (c : Prop) [Decidable c] (text : String),
      (if c then [text] else []) = [] ↔ ¬ c := by
    intro c _ text
    by_cases h : c <;> simp [h]
  unfold DeclaredRequest.reasonParts
  simp only [List.append_eq_nil_iff, hpart, ne_eq, not_not, filter_keys_eq_nil, Bool.not_eq_true,
    Option.isSome_eq_false_iff, Option.isNone_iff_eq_none, and_assoc]

/-- `resolve_request` returns exactly what no required error, no skew and no acceptance violation
speaks against. -/
theorem requestOutcome_returned_iff :
    requestOutcome (request.decided now freshnessPolicyFor) resources errors =
      .returned resources errors .empty ↔
    (∀ k ∈ request.required, k ∉ errors.keys) ∧
      request.findConsistencyViolation resources = none ∧
      request.findAcceptanceViolations resources now freshnessPolicyFor = [] := by
  have hrequired : request.required.filter (fun k => decide (k ∈ errors.keys)) = [] ↔
      ∀ k ∈ request.required, k ∉ errors.keys := by
    simp [List.filter_eq_nil_iff]
  have hskew : (request.consistencyPolicy.any fun p => (findObservationSkewViolation resources
      (if p.includeOptionalResources then request.required ++ request.optional
        else request.required) p).isSome) = (request.findConsistencyViolation resources).isSome := by
    unfold DeclaredRequest.findConsistencyViolation
    cases request.consistencyPolicy <;> rfl
  have haccepts : ((request.acceptancePolicy.map fun policy => acceptanceDecision (V := V) policy
      request.required request.optional now freshnessPolicyFor).any fun accepts =>
        !accepts resources) =
          !(request.findAcceptanceViolations resources now freshnessPolicyFor).isEmpty := by
    unfold DeclaredRequest.findAcceptanceViolations
    cases request.acceptancePolicy <;> rfl
  unfold requestOutcome DeclaredRequest.decided
  dsimp only
  rw [hskew, haccepts]
  by_cases hr : request.required.filter (fun k => decide (k ∈ errors.keys)) = []
  · rw [if_neg (not_not.mpr hr), and_iff_right (hrequired.mp hr)]
    cases request.findConsistencyViolation resources with
    | some violation => simp
    | none =>
      cases request.findAcceptanceViolations resources now freshnessPolicyFor with
      | cons violation rest => simp
      | nil => simp
  · rw [if_pos hr]
    exact iff_of_false nofun fun h => hr (hrequired.mpr h.1)

/-- A snapshot is accepted exactly when `resolve_request` returns it and no optional key failed. -/
theorem classify_accepted_iff :
    (classifySnapshotResult request resources errors policy now freshnessPolicyFor
      baseError).state = .accepted ↔
      requestOutcome (request.decided now freshnessPolicyFor) resources errors =
        .returned resources errors .empty ∧ ∀ k ∈ request.optional, k ∉ errors.keys := by
  rw [classify_accepted, reasonParts_eq_nil, requestOutcome_returned_iff]
  constructor
  · rintro ⟨hrequired, hoptional, hskew, haccepts⟩
    exact ⟨⟨hrequired, hskew, haccepts⟩, hoptional⟩
  · rintro ⟨⟨hrequired, hskew, haccepts⟩, hoptional⟩
    exact ⟨hrequired, hoptional, hskew, haccepts⟩

/-- What a request returns is the snapshot it was given. -/
theorem requestOutcome_returned {request : SnapshotRequest K V}
    {resources' : Dict K (SnapshotValue K V)} {errors' transient : Dict K (Error K)}
    (h : requestOutcome request resources errors = .returned resources' errors' transient) :
    resources = resources' ∧ errors = errors' := by
  unfold requestOutcome at h
  dsimp only at h
  split at h
  · cases h
  · split at h
    · cases h
    · split at h
      · cases h
      · rw [CallOutcome.returned.injEq] at h
        exact ⟨h.1, h.2.1⟩

end

/-! ## The two calls -/

/-- From the same session, with the same answers and clock, the call that does not throw accepts
exactly what the other one returns without optional errors. Failing closed it never degrades. What
it does not accept carries all findings, or the exception that left no snapshot to judge. -/
theorem try_resolve_request_agrees {s t u : Session K V} {request : DeclaredRequest K}
    {retryErrors : Bool} {es : List (SessionEvent K V)} (context : TryContext K V)
    (hbegin : sessionStep s (.resolve request.keys false retryErrors) = some t)
    (hrun : RunOf sessionStep (fun w _ => w.phase.isSome) t es u) (hdone : u.phase = none) :
    ∃ t' u', sessionStep s (.resolveRequest
        (request.decided context.now context.freshnessPolicyFor) retryErrors) = some t' ∧
      RunOf sessionStep (fun w _ => w.phase.isSome) t' es u' ∧ u'.phase = none ∧
      ((∃ outcome result, u.last = some outcome ∧
          tryResolveRequest request context outcome = some result ∧ result.state = .accepted) ↔
        ∃ resources errors, u'.last = some (.returned resources errors .empty) ∧
          ∀ k ∈ request.optional, k ∉ errors.keys) ∧
      ∀ outcome result, u.last = some outcome →
        tryResolveRequest request context outcome = some result →
        (context.policy.failClosed = true → result.state ≠ .degraded) ∧
        (result.state = .accepted →
          u'.last = some (.returned result.resources result.errors .empty)) ∧
        (result.state ≠ .accepted →
          outcome = .returned result.resources result.errors .empty ∧
            result.Carries request context.now context.freshnessPolicyFor ∨
          result.state = .rejected ∧ result.resources = .empty ∧ result.errors = .empty ∧
            ∃ error, outcome = .raised error ∧ result.error = some error) := by
  obtain ⟨hbegin', hlenient⟩ :=
    @forRequest_begin _ _ _ _ (request.decided context.now context.freshnessPolicyFor) _ _
      hbegin
  obtain ⟨hrun', hend⟩ := @forRequest_run _ _ _ _ _
    (request.decided context.now context.freshnessPolicyFor) _ hrun hlenient
  refine ⟨_, _, hbegin', hrun', ?_, ?_⟩
  · simp only [Session.forRequest, hdone]
  · unfold Lenient at hend
    rw [hdone] at hend
    have hlast : (u.forRequest (request.decided context.now context.freshnessPolicyFor)).last =
        u.last.map (CallOutcome.forRequest
          (request.decided context.now context.freshnessPolicyFor)) := by
      simp only [Session.forRequest, hdone]
    rw [hlast]
    cases hu : u.last with
    | none =>
      refine ⟨⟨fun ⟨_, _, h, _⟩ => (by cases h), fun ⟨_, _, h, _⟩ => (by cases h)⟩, ?_⟩
      intro outcome result h
      cases h
    | some outcome =>
      have hkind := hend outcome hu
      simp only [Option.some.injEq, Option.map_some]
      cases outcome with
      | returned resources errors transient =>
        obtain ⟨hresources, herrors⟩ := @classify_snapshot K V _ request resources errors
          context.policy context.now context.freshnessPolicyFor none
        refine ⟨⟨?_, ?_⟩, ?_⟩
        · rintro ⟨outcome, result, rfl, hresult, haccepted⟩
          cases hresult
          exact ⟨resources, errors, classify_accepted_iff.mp haccepted⟩
        · rintro ⟨resources', errors', h, hoptional⟩
          obtain ⟨rfl, rfl⟩ := requestOutcome_returned h
          exact ⟨_, _, rfl, rfl, classify_accepted_iff.mpr ⟨h, hoptional⟩⟩
        · rintro outcome result rfl hresult
          cases hresult
          refine ⟨classify_not_degraded, fun haccepted => ?_, fun hnot => .inl ⟨?_, ?_⟩⟩
          · rw [hresources, herrors]
            exact (classify_accepted_iff.mp haccepted).1
          · rw [hresources, herrors, hkind]
          · exact classify_carries hnot
      | raised error =>
        have htry : tryResolveRequest request context (.raised error) =
            (error.coalestraName context.other).map fun name =>
              ⟨.rejected, .empty, .empty, context.policy.rejectedActions, name, .empty, .empty, [],
                none, some error, context.policy.metadata⟩ := by
          unfold tryResolveRequest
          dsimp only at hkind ⊢
          rw [hkind, if_neg Bool.false_ne_true]
        refine ⟨⟨?_, ?_⟩, ?_⟩
        · rintro ⟨outcome, result, rfl, hresult, haccepted⟩
          rw [htry, Option.map_eq_some_iff] at hresult
          obtain ⟨name, -, rfl⟩ := hresult
          cases haccepted
        · rintro ⟨resources, errors, h, -⟩
          cases h
        · rintro outcome result rfl hresult
          rw [htry, Option.map_eq_some_iff] at hresult
          obtain ⟨name, -, rfl⟩ := hresult
          exact ⟨fun _ => nofun, nofun, fun _ => .inr ⟨rfl, rfl, rfl, error, rfl, rfl⟩⟩
      | cancelled =>
        refine ⟨⟨?_, ?_⟩, ?_⟩
        · rintro ⟨outcome, result, rfl, hresult, -⟩
          cases hresult
        · rintro ⟨resources, errors, h, -⟩
          cases h
        · rintro outcome result rfl hresult
          cases hresult

end

/-! ## A closed session -/

theorem anyAge_nonneg : ∀ m ∈ (none : Option ℚ), 0 ≤ m := by
  intro m hm
  cases hm

theorem keyZero_nodup : [0].Nodup := List.nodup_singleton 0

theorem noKey_nodup : ([] : List ℕ).Nodup := List.nodup_nil

/-- Key 0 is required and has to be accepted. -/
def requiredKeyZero : DeclaredRequest ℕ where
  required := [0]
  optional := []
  consistencyPolicy := none
  acceptancePolicy := some
    { defaultRule := ⟨none, true, none, anyAge_nonneg⟩
      resourceRules := .empty
      requirements := [⟨[0], 1, "", keyZero_nodup, Nat.one_pos, Nat.one_pos⟩]
      includeOptionalResources := false
      constrained := .inr (.inr (by simp)) }
  required_nodup := keyZero_nodup
  optional_nodup := noKey_nodup
  disjoint := by simp
  nonempty := by simp
  referenced := by simp

def plainContext : TryContext ℕ ℕ :=
  ⟨{}, 0, fun _ => .allValues, fun _ => none, fun _ => .empty, none⟩

theorem try_resolve_request_agrees_resolved : ∃ t u t' u' : Session ℕ ℕ, ∃ es,
    sessionStep (Session.new false) (.resolve [0] false false) = some t ∧
      RunOf sessionStep (fun w _ => w.phase.isSome) t es u ∧
      sessionStep (Session.new false) (.resolveRequest
        (requiredKeyZero.decided plainContext.now plainContext.freshnessPolicyFor) false) =
          some t' ∧
      RunOf sessionStep (fun w _ => w.phase.isSome) t' es u' ∧
      (u.last.bind fun outcome => (tryResolveRequest requiredKeyZero plainContext outcome).map
        (·.state)) = some .accepted ∧
      ∃ resources errors, u'.last = some (.returned resources errors .empty) ∧
        ∀ k ∈ requiredKeyZero.optional, k ∉ errors.keys := by
  have hend : ((sessionStep (Session.new false) (.resolve [0] false false)).bind fun t =>
      (execOf sessionStep (fun w _ => w.phase.isSome) t
        [.resolved (exampleOutcome 0 0) [], .delivered]).map fun u => (u.phase.isNone,
          u.last.bind fun outcome =>
            (tryResolveRequest requiredKeyZero plainContext outcome).map (·.state))) =
        some (true, some .accepted) := by
    decide +kernel
  obtain ⟨t, ht, hend⟩ := Option.bind_eq_some_iff.mp hend
  obtain ⟨u, hu, hend⟩ := Option.map_eq_some_iff.mp hend
  rw [Prod.mk.injEq, Option.isNone_iff_eq_none] at hend
  obtain ⟨hdone, haccepted⟩ := hend
  obtain ⟨outcome, hlast, hstate⟩ := Option.bind_eq_some_iff.mp haccepted
  obtain ⟨result, hresult, hstate⟩ := Option.map_eq_some_iff.mp hstate
  obtain ⟨t', u', ht', hu', -, hiff, -⟩ :=
    @try_resolve_request_agrees _ _ _ _ _ _ requiredKeyZero false _ plainContext ht (execOf_run hu)
      hdone
  exact ⟨t, u, t', u', _, ht, execOf_run hu, ht', hu', haccepted,
    hiff.mp ⟨outcome, result, hlast, hresult, hstate⟩⟩

/-- On a closed session the empty snapshot of the rejected result misses its requirement, and the
result does not say so. -/
theorem closed_session_hides_violation : ∃ t u : Session ℕ ℕ, ∃ result : SnapshotResult ℕ ℕ,
    Run sessionStep (Session.new false) [.close] t ∧
      sessionStep t (.resolve requiredKeyZero.keys false false) = some u ∧ u.phase = none ∧
      (u.last.bind (tryResolveRequest requiredKeyZero plainContext)) = some result ∧
      result.state ≠ .accepted ∧
      ¬ result.Carries requiredKeyZero plainContext.now plainContext.freshnessPolicyFor := by
  refine ⟨_, _, _, .cons trivial rfl (.nil _), rfl, rfl, rfl, nofun, fun h => ?_⟩
  have hnil := h.acceptance _ rfl
  revert hnil
  decide
end Coalestra
