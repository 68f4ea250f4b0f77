import Mathlib.Algebra.Order.Field.Rat
import Mathlib.Data.List.Sort
import Mathlib.Tactic.NormNum
import Mathlib.Tactic.GCongr
import Coalestra.Core.SourceTimeout
import Coalestra.Resilience.CircuitBreaker

/-! # The assessment of a health snapshot

`BuilderHealth.assess` of `core/health.py`: thresholds over the current state, and over what the
counters have gained since an earlier snapshot. A finding names its reason and how severe it is; the
assessment is as severe as the worst of them. Ratios are floats, so they are of any linear order
here, and all that is asked of their division is that it does not fall when its numerator rises. -/

namespace Coalestra
set_option autoImplicit false
set_option maxHeartbeats 250000

/-! ## Records -/

inductive BuilderHealthSeverity
  | healthy
  | degraded
  | critical
  deriving DecidableEq, Repr

def BuilderHealthSeverity.rank : BuilderHealthSeverity → ℕ
  | healthy => 0
  | degraded => 1
  | critical => 2

instance : LE BuilderHealthSeverity := ⟨fun a b => a.rank ≤ b.rank⟩

inductive BuilderHealthReason
  | builderClosed
  | sourceCapacityWaiting
  | payloadCopyCapacityWaiting
  | submissionBacklogHigh
  | observabilityBacklogHigh
  | circuitOpen
  | circuitHalfOpen
  | payloadCopyShutdownIncomplete
  | observabilityShutdownIncomplete
  | observabilityWorkerStopped
  | queueTimeoutsIncreased
  | sourceTimeoutsIncreased
  | sourceTransportTimeoutViolationsIncreased
  | deadlinesExceededIncreased
  | revalidationFailuresIncreased
  | payloadCopyFailuresIncreased
  | payloadCopyTimeoutsIncreased
  | payloadCopyShutdownTimeoutsIncreased
  | observabilityDropsIncreased
  | observabilityShutdownTimeoutsIncreased
  | observabilityFailuresIncreased
  | unsafeBlockingSource
  deriving DecidableEq, Repr

/-- What the assessment reads of a `CapacitySnapshot`. -/
structure CapacitySnapshot where
  limit : ℤ
  waiting : ℤ

/-- What it reads of a `PayloadCopyHealth`. -/
structure PayloadCopyHealth where
  maxConcurrency : ℤ
  waitingForCapacity : ℤ

/-- What it reads of a `BufferedSinkStats`. -/
structure BufferedSinkStats where
  pending : ℤ
  maxPending : ℤ
  closed : Bool
  workerAlive : Bool

/-- What it reads of a `BuilderHealth`; mappings as lists of their items. -/
structure BuilderHealth where
  closed : Bool
  capacity : List (String × CapacitySnapshot)
  circuits : List CircuitState
  waitingForCapacity : ℤ
  queueTimeoutCount : ℤ
  sourceTimeoutCount : ℤ
  deadlineExceededCount : ℤ
  revalidationFailureCount : ℤ
  sourceTimeoutGuarantees : List (String × SourceTimeoutGuarantee)
  unsafeBlockingSourceCount : ℤ
  sourceTransportTimeoutViolationCount : ℤ
  pendingSubmissions : ℤ
  maxPendingSubmissions : Option ℤ
  payloadCopyComponents : List (String × PayloadCopyHealth)
  waitingForCopyCapacity : ℤ
  payloadCopyFailureCount : ℤ
  payloadCopyTimeoutCount : ℤ
  payloadCopyShutdownIncomplete : Bool
  payloadCopyShutdownTimeoutCount : ℤ
  observabilityBuffers : List (String × BufferedSinkStats)
  observabilityDroppedCount : ℤ
  observabilityFailureCount : ℤ
  observabilityShutdownIncomplete : Bool
  observabilityShutdownTimeoutCount : ℤ

section
variable (R : Type)

/-- `int | float | bool`. -/
inductive HealthNumber
  | flag (value : Bool)
  | count (value : ℤ)
  | ratio (value : R)
  deriving DecidableEq, Repr

structure BuilderHealthFinding where
  reason : BuilderHealthReason
  severity : BuilderHealthSeverity
  metric : String
  observed : HealthNumber R
  threshold : Option (HealthNumber R)
  component : String
  deriving DecidableEq, Repr

structure BuilderHealthAssessment where
  severity : BuilderHealthSeverity
  findings : List (BuilderHealthFinding R)
  baselineUsed : Bool

/-- The thresholds, and what `__post_init__` checks of them. -/
structure BuilderHealthAssessmentPolicy [LinearOrder R] [Zero R] [One R] where
  capacityWaitingDegraded : ℤ
  capacityWaitingCriticalRatio : R
  copyWaitingDegraded : ℤ
  copyWaitingCriticalRatio : R
  submissionBacklogDegradedRatio : R
  submissionBacklogCriticalRatio : R
  observabilityBacklogDegradedRatio : R
  observabilityBacklogCriticalRatio : R
  counterDeltaDegraded : ℤ
  counterDeltaCritical : ℤ
  capacityWaiting_pos : 1 ≤ capacityWaitingDegraded ∧ 0 < capacityWaitingCriticalRatio
  copyWaiting_pos : 1 ≤ copyWaitingDegraded ∧ 0 < copyWaitingCriticalRatio
  submissionBacklog_unit :
    (0 < submissionBacklogDegradedRatio ∧ submissionBacklogDegradedRatio ≤ 1) ∧
      0 < submissionBacklogCriticalRatio ∧ submissionBacklogCriticalRatio ≤ 1
  observabilityBacklog_unit :
    (0 < observabilityBacklogDegradedRatio ∧ observabilityBacklogDegradedRatio ≤ 1) ∧
      0 < observabilityBacklogCriticalRatio ∧ observabilityBacklogCriticalRatio ≤ 1
  counterDelta_pos : 1 ≤ counterDeltaDegraded ∧ 1 ≤ counterDeltaCritical
  submissionBacklog_le : submissionBacklogDegradedRatio ≤ submissionBacklogCriticalRatio
  observabilityBacklog_le : observabilityBacklogDegradedRatio ≤ observabilityBacklogCriticalRatio
  counterDelta_le : counterDeltaDegraded ≤ counterDeltaCritical

end

/-! ## Ratios -/

section
variable {R : Type} [LinearOrder R] [Zero R] (divide : ℤ → ℤ → R)

/-- `_safe_ratio`. -/
def safeRatio (numerator : ℤ) : Option ℤ → R
  | none => 0
  | some denominator => if denominator ≤ 0 then 0 else max 0 (divide numerator denominator)

/-- The largest ratio with the first component that has it: the loop of the `_maximum_*_ratio`
functions. -/
def maximumRatio (ratios : List (String × R)) : R × String :=
  ratios.foldl (fun best e => if best.1 < e.2 then (e.2, e.1) else best) (0, "")

/-- `_maximum_wait_ratio`. -/
def maximumWaitRatio (capacity : List (String × CapacitySnapshot)) : R × String :=
  maximumRatio (capacity.map fun e => (e.1, safeRatio divide e.2.waiting (some e.2.limit)))

/-- `_maximum_copy_wait_ratio`. -/
def maximumCopyWaitRatio (components : List (String × PayloadCopyHealth)) : R × String :=
  maximumRatio (components.map fun e =>
    (e.1, safeRatio divide e.2.waitingForCapacity (some e.2.maxConcurrency)))

/-- `_maximum_observability_ratio`. -/
def maximumObservabilityRatio (buffers : List (String × BufferedSinkStats)) : R × String :=
  maximumRatio (buffers.map fun e => (e.1, safeRatio divide e.2.pending (some e.2.maxPending)))

end

/-! ## Findings -/

section
variable {R : Type} [LinearOrder R]

/-- A flag that should not be set. -/
def flagFinding (reason : BuilderHealthReason) (metric : String) (flag : Bool) :
    List (BuilderHealthFinding R) :=
  if flag then [⟨reason, .critical, metric, .flag true, some (.flag false), ""⟩] else []

/-- A number of things that should be zero. -/
def countFinding (reason : BuilderHealthReason) (severity : BuilderHealthSeverity) (metric : String)
    (count : ℤ) (component : String) : List (BuilderHealthFinding R) :=
  if 0 < count then [⟨reason, severity, metric, .count count, some (.count 0), component⟩] else []

/-- Calls that wait for a bounded resource: how many there are, and how many for each unit of it. -/
def waitingFinding (reason : BuilderHealthReason) (metric : String) (waiting : ℤ)
    (ratio : R × String) (degraded : ℤ) (criticalRatio : R) : List (BuilderHealthFinding R) :=
  if degraded ≤ max 0 waiting then
    if criticalRatio ≤ ratio.1 then
      [⟨reason, .critical, "maximum_waiting_to_limit_ratio", .ratio ratio.1,
        some (.ratio criticalRatio), ratio.2⟩]
    else [⟨reason, .degraded, metric, .count (max 0 waiting), some (.count degraded), ratio.2⟩]
  else []

/-- How full a bounded backlog is. -/
def backlogFinding (reason : BuilderHealthReason) (metric : String) (ratio : R × String)
    (degraded critical : R) : List (BuilderHealthFinding R) :=
  if degraded ≤ ratio.1 then
    if critical ≤ ratio.1 then
      [⟨reason, .critical, metric, .ratio ratio.1, some (.ratio critical), ratio.2⟩]
    else [⟨reason, .degraded, metric, .ratio ratio.1, some (.ratio degraded), ratio.2⟩]
  else []

/-- What a counter has gained since the earlier snapshot. -/
def deltaFinding (reason : BuilderHealthReason) (fieldName : String) (current prior : ℤ)
    (degraded critical : ℤ) : List (BuilderHealthFinding R) :=
  let delta := max 0 (max 0 current - max 0 prior)
  if delta < degraded then []
  else if critical ≤ delta then
    [⟨reason, .critical, "delta_" ++ fieldName, .count delta, some (.count critical), ""⟩]
  else [⟨reason, .degraded, "delta_" ++ fieldName, .count delta, some (.count degraded), ""⟩]

end

/-- `counter_specs`. -/
def counterSpecs : List (String × (BuilderHealth → ℤ) × BuilderHealthReason) :=
  [("queue_timeout_count", BuilderHealth.queueTimeoutCount, .queueTimeoutsIncreased),
    ("source_timeout_count", BuilderHealth.sourceTimeoutCount, .sourceTimeoutsIncreased),
    ("source_transport_timeout_violation_count",
      BuilderHealth.sourceTransportTimeoutViolationCount,
      .sourceTransportTimeoutViolationsIncreased),
    ("deadline_exceeded_count", BuilderHealth.deadlineExceededCount, .deadlinesExceededIncreased),
    ("revalidation_failure_count", BuilderHealth.revalidationFailureCount,
      .revalidationFailuresIncreased),
    ("payload_copy_failure_count", BuilderHealth.payloadCopyFailureCount,
      .payloadCopyFailuresIncreased),
    ("payload_copy_timeout_count", BuilderHealth.payloadCopyTimeoutCount,
      .payloadCopyTimeoutsIncreased),
    ("payload_copy_shutdown_timeout_count", BuilderHealth.payloadCopyShutdownTimeoutCount,
      .payloadCopyShutdownTimeoutsIncreased),
    ("observability_dropped_count", BuilderHealth.observabilityDroppedCount,
      .observabilityDropsIncreased),
    ("observability_shutdown_timeout_count", BuilderHealth.observabilityShutdownTimeoutCount,
      .observabilityShutdownTimeoutsIncreased),
    ("observability_failure_count", BuilderHealth.observabilityFailureCount,
      .observabilityFailuresIncreased)]

namespace BuilderHealth

/-- Sources that block and are not protected. -/
def unsafeNames (h : BuilderHealth) : List String :=
  ((h.sourceTimeoutGuarantees.filter fun e =>
    e.2.blockingIo && !decide (e.2.status = .isProtected)).map Prod.fst).mergeSort

def stoppedWorkers (h : BuilderHealth) : ℕ :=
  h.observabilityBuffers.countP fun e => !e.2.workerAlive && !e.2.closed

section
variable {R : Type} [LinearOrder R] [Zero R] [One R] (divide : ℤ → ℤ → R)

/-- The findings about the current state, in the order in which they are made. -/
def currentFindings (h : BuilderHealth) (policy : BuilderHealthAssessmentPolicy R) :
    List (List (BuilderHealthFinding R)) :=
  [flagFinding .builderClosed "closed" h.closed,
    countFinding .unsafeBlockingSource .critical "unsafe_blocking_source_count"
      h.unsafeBlockingSourceCount (",".intercalate h.unsafeNames),
    waitingFinding .sourceCapacityWaiting "waiting_for_capacity" h.waitingForCapacity
      (maximumWaitRatio divide h.capacity) policy.capacityWaitingDegraded
      policy.capacityWaitingCriticalRatio,
    waitingFinding .payloadCopyCapacityWaiting "waiting_for_copy_capacity" h.waitingForCopyCapacity
      (maximumCopyWaitRatio divide h.payloadCopyComponents) policy.copyWaitingDegraded
      policy.copyWaitingCriticalRatio,
    backlogFinding .submissionBacklogHigh "submission_backlog_ratio"
      (safeRatio divide h.pendingSubmissions h.maxPendingSubmissions, "")
      policy.submissionBacklogDegradedRatio policy.submissionBacklogCriticalRatio,
    backlogFinding .observabilityBacklogHigh "observability_backlog_ratio"
      (maximumObservabilityRatio divide h.observabilityBuffers)
      policy.observabilityBacklogDegradedRatio policy.observabilityBacklogCriticalRatio,
    countFinding .observabilityWorkerStopped .critical "stopped_observability_workers"
      h.stoppedWorkers "",
    countFinding .circuitOpen .degraded "open_circuits" (h.circuits.count .opened) "",
    countFinding .circuitHalfOpen .degraded "half_open_circuits" (h.circuits.count .halfOpen) "",
    flagFinding .payloadCopyShutdownIncomplete "payload_copy_shutdown_incomplete"
      h.payloadCopyShutdownIncomplete,
    flagFinding .observabilityShutdownIncomplete "observability_shutdown_incomplete"
      h.observabilityShutdownIncomplete]

/-- The findings about the counters. -/
def counterFindings (h : BuilderHealth) (policy : BuilderHealthAssessmentPolicy R) :
    Option BuilderHealth → List (List (BuilderHealthFinding R))
  | none => []
  | some previous => counterSpecs.map fun spec =>
    deltaFinding spec.2.2 spec.1 (spec.2.1 h) (spec.2.1 previous) policy.counterDeltaDegraded
      policy.counterDeltaCritical

def findings (h : BuilderHealth) (previous : Option BuilderHealth)
    (policy : BuilderHealthAssessmentPolicy R) : List (BuilderHealthFinding R) :=
  (h.currentFindings divide policy ++ h.counterFindings policy previous).flatten

end

end BuilderHealth

/-- The severity of a list of findings. -/
def severityOf {R : Type} (findings : List (BuilderHealthFinding R)) : BuilderHealthSeverity :=
  if findings.any fun f => decide (f.severity = .critical) then .critical
  else if findings ≠ [] then .degraded
  else .healthy

/-- `_assess_builder_health`. -/
def BuilderHealth.assess {R : Type} [LinearOrder R] [Zero R] [One R] (divide : ℤ → ℤ → R)
    (h : BuilderHealth) (previous : Option BuilderHealth)
    (policy : BuilderHealthAssessmentPolicy R) : BuilderHealthAssessment R :=
  ⟨severityOf (h.findings divide previous policy), h.findings divide previous policy,
    previous.isSome⟩

/-- `BuilderHealthAssessment.reasons`. -/
def BuilderHealthAssessment.reasons {R : Type} (a : BuilderHealthAssessment R) :
    List BuilderHealthReason := Dict.fromKeys (a.findings.map BuilderHealthFinding.reason)

/-! ## Order of the findings -/

/-- The order in which the checks are made. -/
def assessmentOrder : List BuilderHealthReason :=
  [.builderClosed, .unsafeBlockingSource, .sourceCapacityWaiting, .payloadCopyCapacityWaiting,
    .submissionBacklogHigh, .observabilityBacklogHigh, .observabilityWorkerStopped, .circuitOpen,
    .circuitHalfOpen, .payloadCopyShutdownIncomplete, .observabilityShutdownIncomplete] ++
    counterSpecs.map fun spec => spec.2.2

theorem assessmentOrder_nodup : assessmentOrder.Nodup := by decide

section
variable {R : Type}

/-- A check makes one finding, for its own reason, or none. -/
def MadeBy (reason : BuilderHealthReason) (found : List (BuilderHealthFinding R)) : Prop :=
  found = [] ∨ ∃ f, found = [f] ∧ f.reason = reason

theorem MadeBy.sublist {reason : BuilderHealthReason} {found : List (BuilderHealthFinding R)}
    (h : MadeBy reason found) : (found.map BuilderHealthFinding.reason).Sublist [reason] := by
  rcases h with rfl | ⟨f, rfl, rfl⟩
  · exact List.nil_sublist _
  · exact List.Sublist.refl _

theorem madeBy_flatten {found : List (List (BuilderHealthFinding R))}
    {reasons : List BuilderHealthReason}
    (h : List.Forall₂ (fun found reason => MadeBy reason found) found reasons) :
    (found.flatten.map BuilderHealthFinding.reason).Sublist reasons := by
  induction h with
  | nil => exact List.Sublist.refl _
  | cons hfirst _ ih =>
    rw [List.flatten_cons, List.map_append]
    exact hfirst.sublist.append ih

theorem madeBy_flag (reason : BuilderHealthReason) (metric : String) (flag : Bool) :
    MadeBy reason (flagFinding (R := R) reason metric flag) := by
  unfold flagFinding
  split
  · exact .inr ⟨_, rfl, rfl⟩
  · exact .inl rfl

theorem madeBy_count (reason : BuilderHealthReason) (severity : BuilderHealthSeverity)
    (metric : String) (count : ℤ) (component : String) :
    MadeBy reason (countFinding (R := R) reason severity metric count component) := by
  unfold countFinding
  split
  · exact .inr ⟨_, rfl, rfl⟩
  · exact .inl rfl

theorem madeBy_delta (reason : BuilderHealthReason) (fieldName : String)
    (current prior degraded critical : ℤ) :
    MadeBy reason (deltaFinding (R := R) reason fieldName current prior degraded critical) := by
  unfold deltaFinding
  simp only
  split
  · exact .inl rfl
  · split
    · exact .inr ⟨_, rfl, rfl⟩
    · exact .inr ⟨_, rfl, rfl⟩

variable [LinearOrder R]

theorem madeBy_waiting (reason : BuilderHealthReason) (metric : String) (waiting : ℤ)
    (ratio : R × String) (degraded : ℤ) (criticalRatio : R) :
    MadeBy reason (waitingFinding reason metric waiting ratio degraded criticalRatio) := by
  unfold waitingFinding
  split
  · split
    · exact .inr ⟨_, rfl, rfl⟩
    · exact .inr ⟨_, rfl, rfl⟩
  · exact .inl rfl

theorem madeBy_backlog (reason : BuilderHealthReason) (metric : String) (ratio : R × String)
    (degraded critical : R) :
    MadeBy reason (backlogFinding reason metric ratio degraded critical) := by
  unfold backlogFinding
  split
  · split
    · exact .inr ⟨_, rfl, rfl⟩
    · exact .inr ⟨_, rfl, rfl⟩
  · exact .inl rfl

variable [Zero R] [One R]

theorem currentFindings_ordered (divide : ℤ → ℤ → R) (h : BuilderHealth)
    (policy : BuilderHealthAssessmentPolicy R) :
    ((h.currentFindings divide policy).flatten.map BuilderHealthFinding.reason).Sublist
      (assessmentOrder.take 11) := by
  refine madeBy_flatten ?_
  refine .cons (madeBy_flag _ _ _) (.cons (madeBy_count _ _ _ _ _) (.cons
    (madeBy_waiting _ _ _ _ _ _) (.cons (madeBy_waiting _ _ _ _ _ _) (.cons
    (madeBy_backlog _ _ _ _ _) (.cons (madeBy_backlog _ _ _ _ _) (.cons
    (madeBy_count _ _ _ _ _) (.cons (madeBy_count _ _ _ _ _) (.cons (madeBy_count _ _ _ _ _)
    (.cons (madeBy_flag _ _ _) (.cons (madeBy_flag _ _ _) .nil))))))))))

theorem findings_ordered (divide : ℤ → ℤ → R) (h : BuilderHealth) (previous : Option BuilderHealth)
    (policy : BuilderHealthAssessmentPolicy R) :
    ((h.findings divide previous policy).map BuilderHealthFinding.reason).Sublist
      assessmentOrder := by
  have hcounters : ((h.counterFindings policy previous).flatten.map
      BuilderHealthFinding.reason).Sublist (counterSpecs.map fun spec => spec.2.2) := by
    cases previous with
    | none => exact List.nil_sublist _
    | some b =>
      refine madeBy_flatten ?_
      rw [BuilderHealth.counterFindings, List.forall₂_map_left_iff, List.forall₂_map_right_iff]
      exact List.forall₂_same.mpr fun spec _ => madeBy_delta _ _ _ _ _ _
  rw [BuilderHealth.findings, List.flatten_append, List.map_append]
  exact (currentFindings_ordered divide h policy).append hcounters

end

/-! ## Worse states and stricter policies -/

section
variable {R : Type}

/-- Every finding is found again, at least as severe. -/
def Milder (found found' : List (BuilderHealthFinding R)) : Prop :=
  ∀ f ∈ found, ∃ f' ∈ found', f'.reason = f.reason ∧ f.severity ≤ f'.severity

theorem Milder.nil (found : List (BuilderHealthFinding R)) : Milder [] found := by
  intro f hf
  cases hf

theorem milder_singleton {f f' : BuilderHealthFinding R} (hreason : f'.reason = f.reason)
    (hseverity : f.severity ≤ f'.severity) : Milder [f] [f'] := by
  intro g hg
  rw [List.mem_singleton.mp hg]
  exact ⟨f', List.mem_singleton_self f', hreason, hseverity⟩

theorem Milder.append {found found' others others' : List (BuilderHealthFinding R)}
    (h : Milder found found') (hothers : Milder others others') :
    Milder (found ++ others) (found' ++ others') := by
  intro f hf
  rcases List.mem_append.mp hf with hf | hf
  · obtain ⟨f', hf', hboth⟩ := h f hf
    exact ⟨f', List.mem_append_left _ hf', hboth⟩
  · obtain ⟨f', hf', hboth⟩ := hothers f hf
    exact ⟨f', List.mem_append_right _ hf', hboth⟩

theorem Milder.flatten {found found' : List (List (BuilderHealthFinding R))}
    (h : List.Forall₂ Milder found found') : Milder found.flatten found'.flatten := by
  induction h with
  | nil => exact .nil _
  | cons hfirst _ ih =>
    rw [List.flatten_cons, List.flatten_cons]
    exact hfirst.append ih

theorem severity_le_refl (a : BuilderHealthSeverity) : a ≤ a := Nat.le_refl a.rank

theorem le_critical (a : BuilderHealthSeverity) : a ≤ .critical := by cases a <;> decide

theorem eq_critical {a : BuilderHealthSeverity} (h : .critical ≤ a) : a = .critical := by
  cases a with
  | healthy | degraded => exact absurd h (by decide)
  | critical => rfl

theorem severityOf_critical {found : List (BuilderHealthFinding R)} :
    severityOf found = .critical ↔ ∃ f ∈ found, f.severity = .critical := by
  unfold severityOf
  split
  · rename_i hany
    simpa using hany
  · rename_i hnone
    rw [List.any_eq_true] at hnone
    split <;> simpa using hnone

theorem Milder.severity {found found' : List (BuilderHealthFinding R)} (h : Milder found found') :
    severityOf found ≤ severityOf found' := by
  by_cases hcritical : severityOf found' = .critical
  · rw [hcritical]
    exact le_critical _
  · have hnone : ¬ severityOf found = .critical := by
      intro hfound
      obtain ⟨f, hf, hseverity⟩ := severityOf_critical.mp hfound
      obtain ⟨f', hf', -, hle⟩ := h f hf
      rw [hseverity] at hle
      exact hcritical (severityOf_critical.mpr ⟨f', hf', eq_critical hle⟩)
    have hshape : ∀ l : List (BuilderHealthFinding R), ¬ severityOf l = .critical →
        severityOf l = if l ≠ [] then .degraded else .healthy := by
      intro l hl
      unfold severityOf at hl ⊢
      split
      · rename_i hany
        rw [if_pos hany] at hl
        exact absurd rfl hl
      · rfl
    rw [hshape _ hnone, hshape _ hcritical]
    by_cases hnil : found = []
    · rw [if_neg (not_not.mpr hnil)]
      exact Nat.zero_le _
    · obtain ⟨f, hf⟩ := List.exists_mem_of_ne_nil _ hnil
      obtain ⟨f', hf', -⟩ := h f hf
      rw [if_pos hnil, if_pos (List.ne_nil_of_mem hf')]
      exact severity_le_refl _

theorem milder_flag {reason : BuilderHealthReason} {metric : String} {flag flag' : Bool}
    (h : flag = true → flag' = true) :
    Milder (flagFinding (R := R) reason metric flag) (flagFinding reason metric flag') := by
  unfold flagFinding
  split
  · rename_i hflag
    rw [if_pos (h hflag)]
    exact milder_singleton rfl (severity_le_refl _)
  · exact .nil _

theorem milder_count {reason : BuilderHealthReason} {severity : BuilderHealthSeverity}
    {metric component component' : String} {count count' : ℤ} (h : count ≤ count') :
    Milder (countFinding (R := R) reason severity metric count component)
      (countFinding reason severity metric count' component') := by
  unfold countFinding
  split
  · rw [if_pos (show 0 < count' by omega)]
    exact milder_singleton rfl (severity_le_refl _)
  · exact .nil _

theorem milder_delta {reason : BuilderHealthReason} {fieldName : String}
    {current current' prior prior' degraded degraded' critical critical' : ℤ}
    (hcurrent : current ≤ current') (hprior : prior' ≤ prior) (hdegraded : degraded' ≤ degraded)
    (hcritical : critical' ≤ critical) :
    Milder (deltaFinding (R := R) reason fieldName current prior degraded critical)
      (deltaFinding reason fieldName current' prior' degraded' critical') := by
  unfold deltaFinding
  simp only
  by_cases hfound : max 0 (max 0 current - max 0 prior) < degraded
  · rw [if_pos hfound]
    exact .nil _
  · rw [if_neg hfound, if_neg (show ¬ max 0 (max 0 current' - max 0 prior') < degraded' by omega)]
    by_cases hc : critical' ≤ max 0 (max 0 current' - max 0 prior')
    · rw [if_pos hc]
      split <;> exact milder_singleton rfl (le_critical _)
    · rw [if_neg hc, if_neg (show ¬ critical ≤ max 0 (max 0 current - max 0 prior) by omega)]
      exact milder_singleton rfl (severity_le_refl _)

variable [LinearOrder R]

theorem milder_waiting {reason : BuilderHealthReason} {metric : String} {waiting waiting' : ℤ}
    {ratio ratio' : R × String} {degraded degraded' : ℤ} {criticalRatio criticalRatio' : R}
    (hwaiting : waiting ≤ waiting') (hratio : ratio.1 ≤ ratio'.1) (hdegraded : degraded' ≤ degraded)
    (hcritical : criticalRatio' ≤ criticalRatio) :
    Milder (waitingFinding reason metric waiting ratio degraded criticalRatio)
      (waitingFinding reason metric waiting' ratio' degraded' criticalRatio') := by
  unfold waitingFinding
  by_cases hfound : degraded ≤ max 0 waiting
  · rw [if_pos hfound, if_pos (show degraded' ≤ max 0 waiting' by omega)]
    by_cases hc : criticalRatio' ≤ ratio'.1
    · rw [if_pos hc]
      split <;> exact milder_singleton rfl (le_critical _)
    · rw [if_neg hc, if_neg fun h => hc (hcritical.trans (h.trans hratio))]
      exact milder_singleton rfl (severity_le_refl _)
  · rw [if_neg hfound]
    exact .nil _

theorem milder_backlog {reason : BuilderHealthReason} {metric : String} {ratio ratio' : R × String}
    {degraded degraded' critical critical' : R} (hratio : ratio.1 ≤ ratio'.1)
    (hdegraded : degraded' ≤ degraded) (hcritical : critical' ≤ critical) :
    Milder (backlogFinding reason metric ratio degraded critical)
      (backlogFinding reason metric ratio' degraded' critical') := by
  unfold backlogFinding
  by_cases hfound : degraded ≤ ratio.1
  · rw [if_pos hfound, if_pos (hdegraded.trans (hfound.trans hratio))]
    by_cases hc : critical' ≤ ratio'.1
    · rw [if_pos hc]
      split <;> exact milder_singleton rfl (le_critical _)
    · rw [if_neg hc, if_neg fun h => hc (hcritical.trans (h.trans hratio))]
      exact milder_singleton rfl (severity_le_refl _)
  · rw [if_neg hfound]
    exact .nil _

theorem foldl_best_le {rs rs' : List (String × R)}
    (h : List.Forall₂ (fun e e' => e.2 ≤ e'.2) rs rs') :
    ∀ {best best' : R × String}, best.1 ≤ best'.1 →
      (rs.foldl (fun best e => if best.1 < e.2 then (e.2, e.1) else best) best).1 ≤
        (rs'.foldl (fun best e => if best.1 < e.2 then (e.2, e.1) else best) best').1 := by
  induction h with
  | nil => exact fun hbest => hbest
  | @cons e e' _ _ he _ ih =>
    intro best best' hbest
    rw [List.foldl_cons, List.foldl_cons]
    refine ih ?_
    split
    · split
      · exact he
      · rename_i hle
        exact he.trans (not_lt.mp hle)
    · rename_i hle
      split
      · rename_i hlt
        exact hbest.trans hlt.le
      · exact hbest

variable [Zero R]

/-- The division of the ratios, in its numerator. -/
def Rises (divide : ℤ → ℤ → R) : Prop :=
  ∀ a b d : ℤ, a ≤ b → 0 < d → divide a d ≤ divide b d

theorem safeRatio_le {divide : ℤ → ℤ → R} (hdivide : Rises divide) {a b : ℤ} (h : a ≤ b)
    (denominator : Option ℤ) : safeRatio divide a denominator ≤ safeRatio divide b denominator := by
  cases denominator with
  | none => exact le_refl _
  | some d =>
    unfold safeRatio
    simp only
    split
    · exact le_refl _
    · rename_i hd
      exact max_le_max (le_refl _) (hdivide a b d h (by omega))

theorem maximumRatio_le {rs rs' : List (String × R)}
    (h : List.Forall₂ (fun e e' => e.2 ≤ e'.2) rs rs') :
    (maximumRatio rs).1 ≤ (maximumRatio rs').1 := foldl_best_le h (le_refl _)

end

/-- `h'` shows a state that is in no respect better than `h`. -/
structure Presses (h h' : BuilderHealth) : Prop where
  closed : h.closed = true → h'.closed = true
  unsafeSources : h.unsafeBlockingSourceCount ≤ h'.unsafeBlockingSourceCount
  waiting : h.waitingForCapacity ≤ h'.waitingForCapacity
  capacity : List.Forall₂ (fun e e' : String × CapacitySnapshot =>
    e.2.limit = e'.2.limit ∧ e.2.waiting ≤ e'.2.waiting) h.capacity h'.capacity
  copyWaiting : h.waitingForCopyCapacity ≤ h'.waitingForCopyCapacity
  copies : List.Forall₂ (fun e e' : String × PayloadCopyHealth =>
    e.2.maxConcurrency = e'.2.maxConcurrency ∧ e.2.waitingForCapacity ≤ e'.2.waitingForCapacity)
    h.payloadCopyComponents h'.payloadCopyComponents
  backlog : h.maxPendingSubmissions = h'.maxPendingSubmissions ∧
    h.pendingSubmissions ≤ h'.pendingSubmissions
  buffers : List.Forall₂ (fun e e' : String × BufferedSinkStats =>
    e.2.maxPending = e'.2.maxPending ∧ e.2.pending ≤ e'.2.pending) h.observabilityBuffers
    h'.observabilityBuffers
  stopped : h.stoppedWorkers ≤ h'.stoppedWorkers
  opened : h.circuits.count .opened ≤ h'.circuits.count .opened
  halfOpen : h.circuits.count .halfOpen ≤ h'.circuits.count .halfOpen
  copyShutdown : h.payloadCopyShutdownIncomplete = true → h'.payloadCopyShutdownIncomplete = true
  shutdown : h.observabilityShutdownIncomplete = true → h'.observabilityShutdownIncomplete = true
  counters : ∀ spec ∈ counterSpecs, spec.2.1 h ≤ spec.2.1 h'

/-- `policy'` tolerates no more than `policy`. -/
structure Stricter {R : Type} [LinearOrder R] [Zero R] [One R]
    (policy policy' : BuilderHealthAssessmentPolicy R) : Prop where
  capacityWaiting : policy'.capacityWaitingDegraded ≤ policy.capacityWaitingDegraded
  capacityRatio : policy'.capacityWaitingCriticalRatio ≤ policy.capacityWaitingCriticalRatio
  copyWaiting : policy'.copyWaitingDegraded ≤ policy.copyWaitingDegraded
  copyRatio : policy'.copyWaitingCriticalRatio ≤ policy.copyWaitingCriticalRatio
  submission : policy'.submissionBacklogDegradedRatio ≤ policy.submissionBacklogDegradedRatio
  submissionCritical :
    policy'.submissionBacklogCriticalRatio ≤ policy.submissionBacklogCriticalRatio
  observability :
    policy'.observabilityBacklogDegradedRatio ≤ policy.observabilityBacklogDegradedRatio
  observabilityCritical :
    policy'.observabilityBacklogCriticalRatio ≤ policy.observabilityBacklogCriticalRatio
  delta : policy'.counterDeltaDegraded ≤ policy.counterDeltaDegraded
  deltaCritical : policy'.counterDeltaCritical ≤ policy.counterDeltaCritical

/-- A baseline that lies further back, or one where there was none. -/
def Earlier (previous previous' : Option BuilderHealth) : Prop :=
  ∀ b, previous = some b → ∃ b', previous' = some b' ∧
    ∀ spec ∈ counterSpecs, spec.2.1 b' ≤ spec.2.1 b

section
variable {R : Type} [LinearOrder R] [Zero R] [One R] {divide : ℤ → ℤ → R}
  {policy policy' : BuilderHealthAssessmentPolicy R} {h h' : BuilderHealth}
  {previous previous' : Option BuilderHealth}

theorem Presses.current (hpress : Presses h h') (hstrict : Stricter policy policy')
    (hdivide : Rises divide) :
    List.Forall₂ Milder (h.currentFindings divide policy) (h'.currentFindings divide policy') := by
  have hcapacity : (maximumWaitRatio divide h.capacity).1 ≤
      (maximumWaitRatio divide h'.capacity).1 := by
    refine maximumRatio_le ?_
    rw [List.forall₂_map_left_iff, List.forall₂_map_right_iff]
    refine hpress.capacity.imp ?_
    intro e e' he
    simp only [he.1]
    exact safeRatio_le hdivide he.2 _
  have hcopies : (maximumCopyWaitRatio divide h.payloadCopyComponents).1 ≤
      (maximumCopyWaitRatio divide h'.payloadCopyComponents).1 := by
    refine maximumRatio_le ?_
    rw [List.forall₂_map_left_iff, List.forall₂_map_right_iff]
    refine hpress.copies.imp ?_
    intro e e' he
    simp only [he.1]
    exact safeRatio_le hdivide he.2 _
  have hbuffers : (maximumObservabilityRatio divide h.observabilityBuffers).1 ≤
      (maximumObservabilityRatio divide h'.observabilityBuffers).1 := by
    refine maximumRatio_le ?_
    rw [List.forall₂_map_left_iff, List.forall₂_map_right_iff]
    refine hpress.buffers.imp ?_
    intro e e' he
    simp only [he.1]
    exact safeRatio_le hdivide he.2 _
  have hsubmissions : safeRatio divide h.pendingSubmissions h.maxPendingSubmissions ≤
      safeRatio divide h'.pendingSubmissions h'.maxPendingSubmissions := by
    rw [hpress.backlog.1]
    exact safeRatio_le hdivide hpress.backlog.2 _
  refine .cons (milder_flag hpress.closed) (.cons (milder_count hpress.unsafeSources) (.cons
    (milder_waiting hpress.waiting hcapacity hstrict.capacityWaiting hstrict.capacityRatio) (.cons
    (milder_waiting hpress.copyWaiting hcopies hstrict.copyWaiting hstrict.copyRatio) (.cons
    (milder_backlog hsubmissions hstrict.submission hstrict.submissionCritical) (.cons
    (milder_backlog hbuffers hstrict.observability hstrict.observabilityCritical) (.cons
    (milder_count ?_) (.cons (milder_count ?_) (.cons (milder_count ?_) (.cons
    (milder_flag hpress.copyShutdown) (.cons (milder_flag hpress.shutdown) .nil))))))))))
  · exact_mod_cast hpress.stopped
  · exact_mod_cast hpress.opened
  · exact_mod_cast hpress.halfOpen

theorem Presses.counter (hpress : Presses h h') (hstrict : Stricter policy policy')
    (hearlier : Earlier previous previous') :
    Milder (h.counterFindings policy previous).flatten
      (h'.counterFindings policy' previous').flatten := by
  cases previous with
  | none => exact .nil _
  | some b =>
    obtain ⟨b', rfl, hb⟩ := hearlier b rfl
    refine .flatten ?_
    rw [BuilderHealth.counterFindings, BuilderHealth.counterFindings, List.forall₂_map_left_iff,
      List.forall₂_map_right_iff]
    refine List.forall₂_same.mpr ?_
    intro spec hspec
    exact milder_delta (hpress.counters spec hspec) (hb spec hspec) hstrict.delta
      hstrict.deltaCritical

/-- Assessments are in order and monotone. The reasons are pairwise different and come in the order
of the checks; a snapshot that is nowhere better, assessed by a policy that tolerates no more and
against a baseline that lies no later, is at least as severe, and every finding comes up again. -/
theorem assessments_monotone (hdivide : Rises divide) (hpress : Presses h h')
    (hstrict : Stricter policy policy') (hearlier : Earlier previous previous') :
    ((h.assess divide previous policy).reasons.Sublist assessmentOrder ∧
      (h.assess divide previous policy).reasons =
        (h.assess divide previous policy).findings.map BuilderHealthFinding.reason) ∧
    (h.assess divide previous policy).severity ≤ (h'.assess divide previous' policy').severity ∧
    ∀ f ∈ (h.assess divide previous policy).findings,
      ∃ f' ∈ (h'.assess divide previous' policy').findings,
        f'.reason = f.reason ∧ f.severity ≤ f'.severity := by
  have hordered := findings_ordered divide h previous policy
  have hreasons : (h.assess divide previous policy).reasons =
      (h.assess divide previous policy).findings.map BuilderHealthFinding.reason :=
    Dict.fromKeys_of_nodup (hordered.nodup assessmentOrder_nodup)
  have hmilder : Milder (h.findings divide previous policy)
      (h'.findings divide previous' policy') := by
    rw [BuilderHealth.findings, BuilderHealth.findings, List.flatten_append, List.flatten_append]
    exact (Milder.flatten (hpress.current hstrict hdivide)).append (hpress.counter hstrict hearlier)
  refine ⟨⟨?_, hreasons⟩, hmilder.severity, hmilder⟩
  rw [hreasons]
  exact hordered

end

/-! ## A builder under load -/

/-- The ratios are small enough that floats hold them exactly. -/
def quotient (numerator denominator : ℤ) : ℚ := numerator / denominator

theorem quotient_rises : Rises quotient := by
  intro a b d h hd
  have hcast : (a : ℚ) ≤ b := by exact_mod_cast h
  have hpos : (0 : ℚ) ≤ d := by exact_mod_cast hd.le
  exact div_le_div_of_nonneg_right hcast hpos

theorem half_unit : (0 < (1 / 2 : ℚ) ∧ (1 / 2 : ℚ) ≤ 1) ∧ 0 < (1 : ℚ) ∧ (1 : ℚ) ≤ 1 := by norm_num

/-- Waiting calls are reported from the first one on, a backlog from one half on. -/
def halfPolicy : BuilderHealthAssessmentPolicy ℚ where
  capacityWaitingDegraded := 1
  capacityWaitingCriticalRatio := 1
  copyWaitingDegraded := 1
  copyWaitingCriticalRatio := 1
  submissionBacklogDegradedRatio := 1 / 2
  submissionBacklogCriticalRatio := 1
  observabilityBacklogDegradedRatio := 1 / 2
  observabilityBacklogCriticalRatio := 1
  counterDeltaDegraded := 1
  counterDeltaCritical := 5
  capacityWaiting_pos := ⟨Int.le_refl 1, half_unit.2.1⟩
  copyWaiting_pos := ⟨Int.le_refl 1, half_unit.2.1⟩
  submissionBacklog_unit := half_unit
  observabilityBacklog_unit := half_unit
  counterDelta_pos := ⟨Int.le_refl 1, Int.le.intro 4 rfl⟩
  submissionBacklog_le := half_unit.1.2
  observabilityBacklog_le := half_unit.1.2
  counterDelta_le := Int.le.intro 4 rfl

/-- Some calls wait for four slots, and some queue and source calls have timed out. -/
def loadedBuilder (waiting queueTimeouts sourceTimeouts : ℤ) : BuilderHealth where
  closed := false
  capacity := [("__global__", ⟨4, waiting⟩)]
  circuits := []
  waitingForCapacity := waiting
  queueTimeoutCount := queueTimeouts
  sourceTimeoutCount := sourceTimeouts
  deadlineExceededCount := 0
  revalidationFailureCount := 0
  sourceTimeoutGuarantees := []
  unsafeBlockingSourceCount := 0
  sourceTransportTimeoutViolationCount := 0
  pendingSubmissions := 0
  maxPendingSubmissions := none
  payloadCopyComponents := []
  waitingForCopyCapacity := 0
  payloadCopyFailureCount := 0
  payloadCopyTimeoutCount := 0
  payloadCopyShutdownIncomplete := false
  payloadCopyShutdownTimeoutCount := 0
  observabilityBuffers := []
  observabilityDroppedCount := 0
  observabilityFailureCount := 0
  observabilityShutdownIncomplete := false
  observabilityShutdownTimeoutCount := 0

theorem assessments_monotone_loaded :
    ((loadedBuilder 1 0 0).assess quotient none halfPolicy).severity = .degraded ∧
    ((loadedBuilder 1 0 0).assess quotient none halfPolicy).severity ≤
      ((loadedBuilder 4 0 0).assess quotient none halfPolicy).severity := by
  have hpress : Presses (loadedBuilder 1 0 0) (loadedBuilder 4 0 0) := by
    refine ⟨id, le_refl _, by decide, .cons ⟨rfl, by decide⟩ .nil, le_refl _, .nil,
      ⟨rfl, le_refl _⟩, .nil, le_refl _, le_refl _, le_refl _, id, id, ?_⟩
    intro spec hspec
    simp only [counterSpecs, List.mem_cons, List.not_mem_nil, or_false] at hspec
    rcases hspec with rfl | rfl | rfl | rfl | rfl | rfl | rfl | rfl | rfl | rfl | rfl <;>
      exact le_refl _
  have hstrict : Stricter halfPolicy halfPolicy :=
    ⟨le_refl _, le_refl _, le_refl _, le_refl _, le_refl _, le_refl _, le_refl _, le_refl _,
      le_refl _, le_refl _⟩
  have hearlier : Earlier none none := by
    intro b hb
    cases hb
  exact ⟨by decide +kernel, (assessments_monotone quotient_rises hpress hstrict hearlier).2.1⟩

end Coalestra
