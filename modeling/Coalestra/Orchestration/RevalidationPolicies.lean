import Coalestra.Core.Acceptance
import Coalestra.Orchestration.Revalidation

/-! # What the policies of a revalidation cover

A revalidation checks the skew over the values it has just resolved and acceptance over the
candidate resources of the session. The two agree on the selected keys that are visible. A selected
key that the session resolved only as a dependency has a fresh value but no candidate resource, so
its rule is never evaluated and the revalidation commits whatever was resolved for it. -/

namespace Coalestra
set_option autoImplicit false
set_option maxHeartbeats 250000

section
variable {K V : Type} [DecidableEq K]

/-- `_acceptance_violations` as the decision a session takes: no violation at this clock. -/
def acceptanceDecision (policy : SnapshotAcceptancePolicy K) (required optional : List K) (now : ℚ)
    (freshnessPolicyFor : K → FreshnessPolicy) (resources : Dict K (SnapshotValue K V)) : Bool :=
  (findSnapshotAcceptanceViolations resources required optional policy now
    freshnessPolicyFor).isEmpty

/-- The call that ended here has committed a revalidation. -/
def Session.Committed (u : Session K V) : Prop :=
  u.last = some (.returned u.resources u.errors .empty)

/-- What a session holds of a key: the resource it shows, or the memo value of an internal key. -/
def Session.valueOf (u : Session K V) (k : K) : Option (SnapshotValue K V) :=
  (u.resources.get? k).or (u.memo.get? k)

/-- The values of the selected keys meet their rules, the requirement groups are met, and the
selected keys were observed pairwise within the allowed skew. -/
structure PoliciesHold (u : Session K V) (selected : List K)
    (consistency : Option SnapshotConsistencyPolicy)
    (acceptance : Option (SnapshotAcceptancePolicy K)) (now : ℚ)
    (freshnessPolicyFor : K → FreshnessPolicy) : Prop where
  rules : ∀ policy ∈ acceptance, ∀ k ∈ selected, ∃ v, u.valueOf k = some v ∧
    (policy.ruleFor k).Satisfied (freshnessPolicyFor k) now v
  groups : ∀ policy ∈ acceptance, ∀ requirement ∈ policy.requirements,
    requirement.Met u.resources policy now freshnessPolicyFor
  skew : ∀ policy ∈ consistency, ∀ k ∈ selected, ∀ k' ∈ selected, ∀ v v',
    u.valueOf k = some v → u.valueOf k' = some v' →
      v.observedAt - v'.observedAt ≤ policy.maxObservationSkewSeconds

/-! ## Candidates that passed -/

section
variable (s : Session K V) (requested : List K) (p : Option SnapshotConsistencyPolicy)
  (q : Option (Dict K (SnapshotValue K V) → Bool))

/-- The resources are those of `s` with the targets replaced by values that passed both checks. -/
def Passed (resources : Dict K (SnapshotValue K V)) : Prop :=
  ∃ targets values, (∀ k ∈ requested, k ∈ targets) ∧
    p.bind (findObservationSkewViolation values requested) = none ∧
    (q.any fun accepts => !accepts resources) = false ∧
    replaceTargets values targets s.resources = some resources

/-- The revalidation in progress is the one that began with these policies. -/
structure IsCallOf (c : RevalidateCall K V) : Prop where
  targets : ∀ k ∈ requested, k ∈ c.targets
  consistency : c.consistencyPolicy = p
  acceptance : c.acceptancePolicy = q
  selected : c.requested = requested

/-- What the policies have decided so far, phase by phase. -/
def Vetting (t : Session K V) : Prop :=
  match t.phase with
  | none => t.Committed → Passed s requested p q t.resources
  | some (.staging c) => t.resources = s.resources ∧ IsCallOf requested p q c
  | some (.retrying c _) => t.resources = s.resources ∧ IsCallOf requested p q c
  | some (.committing _ resources _ _) => Passed s requested p q resources
  | some (.reporting _ errors) => errors.entries ≠ []
  | some (.rejecting _ _) => True
  | _ => False

end

section
variable {s t u : Session K V} {requested : List K} {p : Option SnapshotConsistencyPolicy}
  {q : Option (Dict K (SnapshotValue K V) → Bool)}

omit [DecidableEq K] in
theorem not_committed_raised (t : Session K V) (error : SessionError K) :
    ¬ (t.finish (.raised error)).Committed := by
  intro h
  unfold Session.Committed Session.finish at h
  cases h

theorem vetting_raised (t : Session K V) (error : SessionError K) :
    Vetting s requested p q (t.finish (.raised error)) :=
  fun h => absurd h (not_committed_raised t error)

theorem vetting_begin (keys : List K) (strict forceRefresh : Bool) :
    Vetting s (Dict.fromKeys keys) p q (s.beginRevalidate keys strict forceRefresh p q) := by
  unfold Session.beginRevalidate
  dsimp only
  split
  · exact vetting_raised _ _
  · split
    · exact vetting_raised _ _
    · split
      · exact vetting_raised _ _
      · refine ⟨rfl, fun k hk => ?_, rfl, rfl, rfl⟩
        exact Dict.mem_fromKeys.mpr (List.mem_append_left _ hk)

/-- A proposal is committed only after both checks. -/
theorem vetting_propose {c : RevalidateCall K V} {values memo : Dict K (SnapshotValue K V)}
    (hr : t.resources = s.resources) (hc : IsCallOf requested p q c)
    (hskew : p.bind (findObservationSkewViolation values requested) = none) :
    Vetting s requested p q (t.propose c values memo) := by
  unfold Session.propose
  split
  · exact vetting_raised _ _
  · rename_i resources hreplace
    split
    · trivial
    · rename_i haccepts
      rw [Bool.not_eq_true, hc.acceptance] at haccepts
      exact ⟨c.targets, values, hc.targets, hskew, haccepts, hr ▸ hreplace⟩

theorem vetting_check {c : RevalidateCall K V} {values memo : Dict K (SnapshotValue K V)}
    (attempted : List (K × String)) (hr : t.resources = s.resources)
    (hc : IsCallOf requested p q c) :
    Vetting s requested p q (t.checkConsistency c values memo attempted) := by
  unfold Session.checkConsistency
  rw [hc.consistency, hc.selected]
  split
  · rename_i hskew
    exact vetting_propose hr hc hskew
  · split
    · unfold Session.retry
      split
      · trivial
      · split
        · trivial
        · exact ⟨hr, hc⟩
    · trivial

theorem vetting_interrupted {enforce : Bool} {interrupt : Interrupt} {error : SessionError K}
    (h : t.interrupted enforce interrupt (t.finish (.raised error)) = some u) :
    Vetting s requested p q u := by
  cases interrupt with
  | deadline =>
    simp only [Session.interrupted] at h
    split at h
    · cases h
      exact vetting_raised _ _
    · cases h
  | cancelled =>
    cases h
    intro hc
    unfold Session.Committed Session.finish at hc
    cases hc
  | error =>
    cases h
    exact vetting_raised _ _

/-- Every step of the call in progress keeps what its policies have decided. -/
theorem vetting_step {e : SessionEvent K V} (h : Vetting s requested p q t)
    (hbusy : t.phase.isSome) (hu : sessionStep t e = some u) : Vetting s requested p q u := by
  obtain ⟨phase, hphase⟩ := Option.isSome_iff_exists.mp hbusy
  have hlocked : ∀ t' : Session K V, t.locked t' ≠ some u := by
    intro t' ht'
    simp [Session.locked, hphase] at ht'
  have hsame : ∀ t' : Session K V, t'.phase = t.phase → t'.resources = t.resources →
      Vetting s requested p q t' := by
    intro t' hp hr
    unfold Vetting at h ⊢
    rw [hp, hr]
    rw [hphase] at h ⊢
    cases phase <;> exact h
  unfold Vetting at h
  rw [hphase] at h
  cases e with
  | resolve keys strict retryErrors => exact absurd hu (hlocked _)
  | resolveRequest request retryErrors => exact absurd hu (hlocked _)
  | revalidate keys strict forceRefresh p q => exact absurd hu (hlocked _)
  | snapshotAsync => exact absurd hu (hlocked _)
  | close => exact absurd hu (hlocked _)
  | snapshot =>
    cases hu
    exact hsame t rfl rfl
  | stray key value =>
    simp only [sessionStep] at hu
    split at hu
    · cases hu
      exact hsame _ rfl rfl
    · cases hu
  | resolved o leftovers =>
    simp only [sessionStep, Session.onResolved, hphase] at hu
    cases phase with
    | staging c =>
      dsimp only at hu
      split at hu
      · split at hu
        · cases hu
          exact vetting_check [] h.1 h.2
        · rename_i herrors
          cases hu
          exact herrors
      · cases hu
    | retrying c r =>
      dsimp only at hu
      split at hu
      · split at hu
        · cases hu
          exact vetting_check _ h.1 h.2
        · cases hu
          trivial
      · cases hu
    | resolving c => exact h.elim
    | _ => cases hu
  | unresolved interrupt memo leftovers =>
    simp only [sessionStep, Session.onUnresolved, hphase] at hu
    cases phase with
    | staging c => exact vetting_interrupted hu
    | retrying c r => exact vetting_interrupted hu
    | resolving c => exact h.elim
    | _ => cases hu
  | delivered =>
    simp only [sessionStep, Session.onDelivered, hphase] at hu
    cases phase with
    | reporting c errors =>
      cases hu
      intro hcommitted
      unfold Session.Committed Session.finish at hcommitted
      dsimp only at hcommitted
      split at hcommitted
      · cases hcommitted
      · rw [Option.some.injEq, CallOutcome.returned.injEq] at hcommitted
        exact absurd (congrArg Dict.entries hcommitted.2.2) h
    | rejecting error c =>
      cases hu
      exact vetting_raised _ _
    | committing c resources errors memo =>
      cases hu
      exact fun _ => h
    | delivering c => exact h.elim
    | lateDelivering c => exact h.elim
    | viewing => exact h.elim
    | _ => cases hu
  | undelivered interrupt =>
    simp only [sessionStep, Session.onUndelivered, hphase] at hu
    cases phase with
    | reporting c errors => exact vetting_interrupted hu
    | rejecting error c => exact vetting_interrupted hu
    | committing c resources errors memo => exact vetting_interrupted hu
    | delivering c => exact h.elim
    | lateDelivering c => exact h.elim
    | viewing => exact h.elim
    | _ => cases hu

/-- A committed revalidation has passed both checks. -/
theorem committed_passed {keys : List K} {strict forceRefresh : Bool} {es : List (SessionEvent K V)}
    (hbegin : sessionStep s (.revalidate keys strict forceRefresh p q) = some t)
    (hrun : RunOf sessionStep (fun w _ => w.phase.isSome) t es u) (hdone : u.phase = none)
    (hcommitted : u.Committed) : Passed s (Dict.fromKeys keys) p q u.resources := by
  have hstart : Vetting s (Dict.fromKeys keys) p q t := by
    simp only [sessionStep, Session.locked] at hbegin
    split at hbegin
    · cases hbegin
      exact vetting_begin keys strict forceRefresh
    · cases hbegin
  have hend : Vetting s (Dict.fromKeys keys) p q u :=
    hrun.history (P := fun _ w => Vetting s (Dict.fromKeys keys) p q w) hstart
      fun _ _ _ _ _ hbusy hstep h => vetting_step h hbusy hstep
  unfold Vetting at hend
  rw [hdone] at hend
  exact hend hcommitted

end

/-! ## The selected keys -/

section
variable {s t u : Session K V} {selected : List K}

/-- What has passed meets its policies as far as the selected keys are visible. -/
theorem policiesHold_of_passed {p : Option SnapshotConsistencyPolicy}
    {acceptance : Option (SnapshotAcceptancePolicy K)} {now : ℚ}
    {freshnessPolicyFor : K → FreshnessPolicy}
    (h : Passed s (Dict.fromKeys selected) p (acceptance.map fun policy =>
      acceptanceDecision policy (Dict.fromKeys selected) [] now freshnessPolicyFor) u.resources)
    (hvisible : ∀ k ∈ selected, k ∈ s.resources.keys) :
    PoliciesHold u selected p acceptance now freshnessPolicyFor := by
  obtain ⟨targets, values, htargets, hskew, haccepts, hreplace⟩ := h
  obtain ⟨hget, hsome⟩ := replaceTargets_spec hreplace
  have hvalue : ∀ k ∈ selected, ∃ v, values.get? k = some v ∧ u.resources.get? k = some v ∧
      u.valueOf k = some v := by
    intro k hk
    have htarget := htargets k (Dict.mem_fromKeys.mpr hk)
    obtain ⟨v, hv⟩ := hsome k htarget (hvisible k hk)
    have hr : u.resources.get? k = some v := by
      rw [hget k, if_pos ⟨htarget, hvisible k hk⟩, hv]
    exact ⟨v, hv, hr, by rw [Session.valueOf, hr]; rfl⟩
  have hnil : ∀ policy ∈ acceptance, findSnapshotAcceptanceViolations u.resources
      (Dict.fromKeys selected) [] policy now freshnessPolicyFor = [] := by
    intro policy hpolicy
    rw [Option.mem_def] at hpolicy
    subst hpolicy
    simpa [acceptanceDecision] using haccepts
  refine ⟨fun policy hpolicy k hk => ?_, fun policy hpolicy => ?_, ?_⟩
  · obtain ⟨v, -, hr, hvk⟩ := hvalue k hk
    refine ⟨v, hvk, (findSnapshotAcceptanceViolations_eq_nil.mp (hnil policy hpolicy)).1 k ?_ v hr⟩
    simp [directlyEnforced, hk]
  · exact (findSnapshotAcceptanceViolations_eq_nil.mp (hnil policy hpolicy)).2
  · intro policy hpolicy k hk k' hk' v v' hv hv'
    rw [Option.mem_def] at hpolicy
    subst hpolicy
    obtain ⟨w, hw, -, hwk⟩ := hvalue k hk
    obtain ⟨w', hw', -, hwk'⟩ := hvalue k' hk'
    rw [hv, Option.some.injEq] at hwk
    rw [hv', Option.some.injEq] at hwk'
    subst hwk hwk'
    exact skew_le_of_no_violation hskew (Dict.mem_fromKeys.mpr hk) (Dict.mem_fromKeys.mpr hk') hw
      hw'

/-- Only sources of rank one are accepted. -/
def trustedOnly : SnapshotAcceptancePolicy K where
  defaultRule := ⟨none, true, some 1, by simp⟩
  resourceRules := .empty
  requirements := []
  includeOptionalResources := false
  constrained := .inl rfl

/-- The resolution that has rank one for what the session shows and rank zero for what it does
not. -/
def demotingOutcome (s : Session K V) (v : SnapshotValue K V) (targets : List K) :
    ResolveOutcome K V :=
  let values := Dict.comprehend targets fun k =>
    some { v with key := k, authorityRank := if k ∈ s.resources.keys then 1 else 0 }
  { keys := targets
    values := values
    errors := .empty
    memo := values
    covers := fun k => by simp [values, Dict.mem_keys, Dict.get?_comprehend]
    disjoint := fun k _ => by simp }

theorem replaceTargets_some {values : Dict K (SnapshotValue K V)} :
    ∀ {targets : List K} {resources : Dict K (SnapshotValue K V)},
      (∀ k ∈ targets, ∃ v, values.get? k = some v) →
      ∃ after, replaceTargets values targets resources = some after
  | [], resources, _ => ⟨resources, rfl⟩
  | key :: targets, resources, h => by
      obtain ⟨v, hv⟩ := h key List.mem_cons_self
      have hrest := fun k hk => h k (List.mem_cons_of_mem _ hk)
      rw [replaceTargets]
      split
      · rw [hv]
        exact replaceTargets_some hrest
      · exact replaceTargets_some hrest

/-- With an internal selected key a revalidation can commit a value below the required rank. -/
theorem commits_untrusted (hopen : s.closed = false) (hidle : s.phase = none)
    (hmemo : ∀ k ∈ selected, k ∈ s.memo.keys) {k : K} (hk : k ∈ selected)
    (hinternal : k ∉ s.resources.keys) (now : ℚ) (freshnessPolicyFor : K → FreshnessPolicy) :
    ∃ t es u v, sessionStep s (.revalidate selected true false none
        (some (acceptanceDecision trustedOnly (Dict.fromKeys selected) [] now
          freshnessPolicyFor))) = some t ∧
      RunOf sessionStep (fun w _ => w.phase.isSome) t es u ∧ u.phase = none ∧ u.Committed ∧
      u.valueOf k = some v ∧ v.authorityRank = 0 := by
  obtain ⟨v, -⟩ := Dict.mem_keys.mp (hmemo k hk)
  let accepts : Dict K (SnapshotValue K V) → Bool :=
    acceptanceDecision trustedOnly (Dict.fromKeys selected) [] now freshnessPolicyFor
  let requested := Dict.fromKeys selected
  let affected := affectedKeysFromMemo requested s.memo
  let targets := Dict.fromKeys (requested ++
    s.resources.keys.filter fun k => decide (k ∈ affected ∧ k ∉ requested))
  let c : RevalidateCall K V := ⟨requested, affected, targets, true, false, none, some accepts⟩
  let o := demotingOutcome s v targets
  have hget : ∀ j, o.values.get? j = if j ∈ targets then
      some { v with key := j, authorityRank := if j ∈ s.resources.keys then 1 else 0 } else none :=
    fun j => Dict.get?_comprehend _ _ j
  have hktarget : k ∈ targets := by
    simp [targets, requested, hk]
  -- The call begins: the session is open, the selection is not empty and all of it is known.
  have hbegin : sessionStep s (.revalidate selected true false none (some accepts)) =
      some (s.await (.staging c)) := by
    have hne : Dict.fromKeys selected ≠ [] := List.ne_nil_of_mem (Dict.mem_fromKeys.mpr hk)
    have hknown : (Dict.fromKeys selected).filter (fun k => decide (k ∉ s.memo.keys)) = [] := by
      rw [List.filter_eq_nil_iff]
      intro j hj
      simp [hmemo j (Dict.mem_fromKeys.mp hj)]
    simp only [sessionStep, Session.locked, hidle, Option.isNone_none, if_true,
      Session.beginRevalidate, hopen, Bool.false_eq_true, if_false, hne, hknown, ne_eq,
      not_true_eq_false]
    rfl
  -- Every target gets a value, so the candidate exists, and what it shows has rank one.
  obtain ⟨resources, hreplace⟩ : ∃ after, replaceTargets o.values targets s.resources = some after :=
    replaceTargets_some fun j hj => ⟨_, by rw [hget j, if_pos hj]⟩
  obtain ⟨hafter, -⟩ := replaceTargets_spec hreplace
  have haccepts : accepts resources = true := by
    refine List.isEmpty_iff.mpr (findSnapshotAcceptanceViolations_eq_nil.mpr ⟨?_, ?_⟩)
    · intro j hj w hw
      have hjt : j ∈ targets := by
        simp only [directlyEnforced, trustedOnly, Dict.mem_fromKeys, Bool.false_eq_true, if_false,
          List.append_nil, Dict.keys_empty] at hj
        simp [targets, requested, hj]
      have hvisible : j ∈ s.resources.keys := by
        by_contra hnot
        rw [hafter j, if_neg fun h => hnot h.2, Dict.get?_eq_none.mpr hnot] at hw
        cases hw
      rw [hafter j, if_pos ⟨hjt, hvisible⟩, hget j, if_pos hjt, if_pos hvisible,
        Option.some.injEq] at hw
      subst hw
      refine ⟨fun h => ?_, fun m hm => ?_, fun r hr => ?_⟩
      · cases h
      · cases hm
      · cases hr
        exact le_rfl
    · intro requirement hr
      cases hr
  let committing := s.await (.committing c resources
    (s.errors.filter fun k => decide (k ∉ targets)) o.memo)
  have hresolved : sessionStep (s.await (.staging c)) (.resolved o []) = some committing := by
    have hkeys : o.keys = c.targets := rfl
    have herrors : o.errors.entries = [] := rfl
    simp only [sessionStep, Session.onResolved, Session.await, hkeys, if_true, herrors]
    simp only [Session.checkConsistency, c, Option.bind_none, Session.propose, hreplace,
      Option.any_some, haccepts, Bool.not_true, Bool.false_eq_true, if_false]
    rfl
  refine ⟨s.await (.staging c), [.resolved o [], .delivered], committing.commit resources
    (s.errors.filter fun k => decide (k ∉ targets)) o.memo, { v with key := k, authorityRank := 0 },
    hbegin, ?_, rfl, rfl, ?_, rfl⟩
  · exact .cons rfl hresolved (.cons rfl rfl (.nil _))
  · show (resources.get? k).or (o.values.get? k) = _
    rw [hafter k, if_neg fun h => hinternal h.2, Dict.get?_eq_none.mpr hinternal, hget k,
      if_pos hktarget, if_neg hinternal]
    rfl

end
end

/-! ## A visible and an internal selection -/

/-- Key 0 is resolved and shown. -/
def resolveKeyZero : List (SessionEvent ℕ ℕ) :=
  [.resolve [0] true false, .resolved (exampleOutcome 0 0) [], .delivered]

/-- Key 1 is derived from key 0; only key 1 is requested and shown. -/
def resolveDerived : List (SessionEvent ℕ ℕ) :=
  let derived := { exampleValue 1 1 with dependencyVersions := Dict.empty.set 0 0 }
  [.resolve [1] true false,
    .resolved ⟨[1], Dict.empty.set 1 derived, .empty,
      (Dict.empty.set 0 (exampleValue 0 0)).set 1 derived, fun k => by simp [Dict.mem_keys_set],
      fun k _ => by simp⟩ [],
    .delivered]

end Coalestra
