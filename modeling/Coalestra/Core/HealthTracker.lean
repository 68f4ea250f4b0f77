import Coalestra.Core.HealthAssessment

/-! # Operational counters between two snapshots

`OperationalHealthTracker` of `core/health.py`. Each of its methods is one critical section, so the
calls of all threads form one sequence, and a call that raises changes nothing. An assessment
against an earlier snapshot reports what the calls in between have recorded and nothing else: what
happened before the baseline never shows again. -/

namespace Coalestra
set_option autoImplicit false
set_option maxHeartbeats 250000

/-! ## The tracker -/

structure OperationalHealthTracker where
  activeDispatchWorkers : ℕ
  queueTimeoutCount : ℕ
  sourceTimeoutCount : ℕ
  sourceTransportTimeoutViolationCount : ℕ
  sourceTransportTimeoutViolations : Dict String ℕ
  deadlineExceededCount : ℕ
  revalidationAttemptCount : ℕ
  revalidationFailureCount : ℕ

inductive TrackerCall
  | dispatchWorkerStarted
  | dispatchWorkerFinished
  | recordQueueTimeout
  | recordSourceTimeout
  | recordSourceTransportTimeoutViolation (source : String)
  | recordDeadlineExceeded
  | recordRevalidation (failed : Bool)
  deriving DecidableEq, Repr

inductive TrackerError
  | runtimeError (message : String)
  | valueError (message : String)
  deriving DecidableEq, Repr

namespace OperationalHealthTracker

def new : OperationalHealthTracker := ⟨0, 0, 0, 0, .empty, 0, 0, 0⟩

/-- The methods of the tracker. -/
def call (t : OperationalHealthTracker) : TrackerCall → Except TrackerError OperationalHealthTracker
  | .dispatchWorkerStarted => .ok { t with activeDispatchWorkers := t.activeDispatchWorkers + 1 }
  | .dispatchWorkerFinished =>
    if t.activeDispatchWorkers = 0 then
      .error (.runtimeError "dispatch worker counter cannot become negative")
    else .ok { t with activeDispatchWorkers := t.activeDispatchWorkers - 1 }
  | .recordQueueTimeout => .ok { t with queueTimeoutCount := t.queueTimeoutCount + 1 }
  | .recordSourceTimeout => .ok { t with sourceTimeoutCount := t.sourceTimeoutCount + 1 }
  | .recordSourceTransportTimeoutViolation source =>
    let normalized := strip source
    if normalized = "" then .error (.valueError "source cannot be empty")
    else .ok { t with
      sourceTransportTimeoutViolationCount := t.sourceTransportTimeoutViolationCount + 1
      sourceTransportTimeoutViolations := t.sourceTransportTimeoutViolations.set normalized
        ((t.sourceTransportTimeoutViolations.get? normalized).getD 0 + 1) }
  | .recordDeadlineExceeded => .ok { t with deadlineExceededCount := t.deadlineExceededCount + 1 }
  | .recordRevalidation failed =>
    .ok { t with
      revalidationAttemptCount := t.revalidationAttemptCount + 1
      revalidationFailureCount := t.revalidationFailureCount + if failed then 1 else 0 }

/-- The tracker after a call, which may have raised. -/
def record (t : OperationalHealthTracker) (c : TrackerCall) : OperationalHealthTracker :=
  match t.call c with
  | .ok t' => t'
  | .error _ => t

def recordAll (t : OperationalHealthTracker) (calls : List TrackerCall) :
    OperationalHealthTracker := calls.foldl record t

/-- The counter behind a reason. -/
def counter (t : OperationalHealthTracker) : BuilderHealthReason → ℕ
  | .queueTimeoutsIncreased => t.queueTimeoutCount
  | .sourceTimeoutsIncreased => t.sourceTimeoutCount
  | .sourceTransportTimeoutViolationsIncreased => t.sourceTransportTimeoutViolationCount
  | .deadlinesExceededIncreased => t.deadlineExceededCount
  | .revalidationFailuresIncreased => t.revalidationFailureCount
  | _ => 0

end OperationalHealthTracker

/-- The call counts for a reason. -/
def TrackerCall.counts : BuilderHealthReason → TrackerCall → Bool
  | .queueTimeoutsIncreased, .recordQueueTimeout => true
  | .sourceTimeoutsIncreased, .recordSourceTimeout => true
  | .sourceTransportTimeoutViolationsIncreased, .recordSourceTransportTimeoutViolation source =>
    decide (strip source ≠ "")
  | .deadlinesExceededIncreased, .recordDeadlineExceeded => true
  | .revalidationFailuresIncreased, .recordRevalidation failed => failed
  | _, _ => false

/-- The call counts as a violation of a source. -/
def TrackerCall.violationOf (name : String) : TrackerCall → Bool
  | .recordSourceTransportTimeoutViolation source =>
    decide (strip source = name ∧ strip source ≠ "")
  | _ => false

/-- The health snapshot was built from the counters of this tracker. -/
structure BuilderHealth.Shows (h : BuilderHealth) (t : OperationalHealthTracker) : Prop where
  queueTimeouts : h.queueTimeoutCount = t.queueTimeoutCount
  sourceTimeouts : h.sourceTimeoutCount = t.sourceTimeoutCount
  violations : h.sourceTransportTimeoutViolationCount = t.sourceTransportTimeoutViolationCount
  deadlines : h.deadlineExceededCount = t.deadlineExceededCount
  revalidations : h.revalidationFailureCount = t.revalidationFailureCount

/-! ## What the counters count -/

namespace OperationalHealthTracker

theorem record_counter (t : OperationalHealthTracker) (c : TrackerCall)
    (reason : BuilderHealthReason) :
    (t.record c).counter reason = t.counter reason + if c.counts reason then 1 else 0 := by
  cases c with
  | dispatchWorkerStarted => cases reason <;> rfl
  | dispatchWorkerFinished =>
    simp only [record, call]
    split
    · rename_i t' hcall
      split at hcall
      · cases hcall
      · cases hcall
        cases reason <;> rfl
    · cases reason <;> rfl
  | recordQueueTimeout | recordSourceTimeout | recordDeadlineExceeded => cases reason <;> rfl
  | recordSourceTransportTimeoutViolation source =>
    simp only [record, call]
    by_cases hblank : strip source = ""
    · rw [if_pos hblank]
      cases reason <;> simp [TrackerCall.counts, hblank]
    · rw [if_neg hblank]
      cases reason <;> simp [counter, TrackerCall.counts, hblank]
  | recordRevalidation failed => cases reason <;> rfl

theorem recordAll_counter (calls : List TrackerCall) (reason : BuilderHealthReason) :
    ∀ t : OperationalHealthTracker,
      (t.recordAll calls).counter reason =
        t.counter reason + calls.countP (TrackerCall.counts reason) := by
  induction calls with
  | nil => intro t; rfl
  | cons c calls ih =>
    intro t
    have hrest := ih (t.record c)
    have hfirst := record_counter t c reason
    rw [List.countP_cons]
    simp only [recordAll, List.foldl_cons] at hrest ⊢
    omega

theorem record_violations (t : OperationalHealthTracker) (c : TrackerCall) (name : String) :
    ((t.record c).sourceTransportTimeoutViolations.get? name).getD 0 =
      (t.sourceTransportTimeoutViolations.get? name).getD 0 +
        if c.violationOf name then 1 else 0 := by
  cases c with
  | recordSourceTransportTimeoutViolation source =>
    simp only [record, call, TrackerCall.violationOf]
    by_cases hblank : strip source = ""
    · rw [if_pos hblank]
      simp [hblank]
    · rw [if_neg hblank]
      simp only [Dict.get?_set]
      by_cases hname : name = strip source
      · subst hname
        simp [hblank]
      · have hname' : ¬ strip source = name := fun h => hname h.symm
        simp [hname, hname']
  | dispatchWorkerFinished =>
    simp only [record, call]
    split
    · rename_i t' hcall
      split at hcall
      · cases hcall
      · cases hcall
        rfl
    · rfl
  | dispatchWorkerStarted | recordQueueTimeout | recordSourceTimeout | recordDeadlineExceeded
  | recordRevalidation => rfl

theorem recordAll_violations (calls : List TrackerCall) (name : String) :
    ∀ t : OperationalHealthTracker,
      ((t.recordAll calls).sourceTransportTimeoutViolations.get? name).getD 0 =
        (t.sourceTransportTimeoutViolations.get? name).getD 0 +
          calls.countP (TrackerCall.violationOf name) := by
  induction calls with
  | nil => intro t; rfl
  | cons c calls ih =>
    intro t
    have hrest := ih (t.record c)
    have hfirst := record_violations t c name
    rw [List.countP_cons]
    simp only [recordAll, List.foldl_cons] at hrest ⊢
    omega

end OperationalHealthTracker

/-! ## Findings against a baseline -/

/-- The checks of the counters of the tracker. -/
def operationalSpecs : List (String × (BuilderHealth → ℤ) × BuilderHealthReason) :=
  counterSpecs.take 5

theorem BuilderHealth.Shows.counter {h : BuilderHealth} {t : OperationalHealthTracker}
    (hshows : h.Shows t) : ∀ spec ∈ operationalSpecs, spec.2.1 h = t.counter spec.2.2 := by
  intro spec hspec
  simp only [operationalSpecs, counterSpecs, List.take_succ_cons, List.take_zero, List.mem_cons,
    List.not_mem_nil, or_false] at hspec
  rcases hspec with rfl | rfl | rfl | rfl | rfl
  · exact hshows.queueTimeouts
  · exact hshows.sourceTimeouts
  · exact hshows.violations
  · exact hshows.deadlines
  · exact hshows.revalidations

theorem counterSpecs_nodup : (counterSpecs.map fun spec => spec.2.2).Nodup := by decide

theorem counterSpecs_apart : ∀ spec ∈ counterSpecs, spec.2.2 ∉ assessmentOrder.take 11 := by decide

section
variable {R : Type}

theorem mem_deltaFinding {reason : BuilderHealthReason} {fieldName : String}
    {current prior degraded critical : ℤ} {f : BuilderHealthFinding R} :
    f ∈ deltaFinding reason fieldName current prior degraded critical ↔
      degraded ≤ max 0 (max 0 current - max 0 prior) ∧
        f = ⟨reason,
          if critical ≤ max 0 (max 0 current - max 0 prior) then .critical else .degraded,
          "delta_" ++ fieldName, .count (max 0 (max 0 current - max 0 prior)),
          some (.count (if critical ≤ max 0 (max 0 current - max 0 prior) then critical
            else degraded)), ""⟩ := by
  unfold deltaFinding
  simp only
  by_cases hlow : max 0 (max 0 current - max 0 prior) < degraded
  · rw [if_pos hlow]
    simp only [List.not_mem_nil, false_iff, not_and]
    intro hle
    omega
  · rw [if_neg hlow]
    have hle : degraded ≤ max 0 (max 0 current - max 0 prior) := by omega
    split <;> simp [hle]

variable [LinearOrder R] [Zero R] [One R] (divide : ℤ → ℤ → R)
  (policy : BuilderHealthAssessmentPolicy R)

/-- The findings about the current state are not about counters. -/
theorem currentFindings_reason (h : BuilderHealth) {f : BuilderHealthFinding R}
    (hf : f ∈ (h.currentFindings divide policy).flatten) :
    f.reason ∈ assessmentOrder.take 11 :=
  (currentFindings_ordered divide h policy).subset (List.mem_map_of_mem hf)

/-- The findings for the reason of a counter are those of its own check. -/
theorem mem_findings_counter (h previous : BuilderHealth)
    {spec : String × (BuilderHealth → ℤ) × BuilderHealthReason} (hspec : spec ∈ counterSpecs)
    {f : BuilderHealthFinding R} :
    f ∈ h.findings divide (some previous) policy ∧ f.reason = spec.2.2 ↔
      f ∈ deltaFinding spec.2.2 spec.1 (spec.2.1 h) (spec.2.1 previous)
        policy.counterDeltaDegraded policy.counterDeltaCritical := by
  rw [BuilderHealth.findings, List.flatten_append, List.mem_append]
  constructor
  · rintro ⟨hf | hf, hreason⟩
    · have hcurrent := currentFindings_reason divide policy h hf
      rw [hreason] at hcurrent
      exact absurd hcurrent (counterSpecs_apart spec hspec)
    · obtain ⟨found, hfound, hf⟩ := List.mem_flatten.mp hf
      obtain ⟨spec', hspec', rfl⟩ := List.mem_map.mp hfound
      have hmade := (mem_deltaFinding.mp hf).2
      have hsame : spec'.2.2 = spec.2.2 := by
        rw [← hreason, hmade]
      rw [List.inj_on_of_nodup_map counterSpecs_nodup hspec' hspec hsame] at hf
      exact hf
  · intro hf
    refine ⟨.inr (List.mem_flatten.mpr ⟨_, List.mem_map_of_mem hspec, hf⟩), ?_⟩
    rw [(mem_deltaFinding.mp hf).2]

theorem counter_unseen (h : BuilderHealth)
    {spec : String × (BuilderHealth → ℤ) × BuilderHealthReason} (hspec : spec ∈ counterSpecs)
    {f : BuilderHealthFinding R} (hf : f ∈ h.findings divide none policy) :
    f.reason ≠ spec.2.2 := by
  rw [BuilderHealth.findings, List.flatten_append, List.mem_append] at hf
  rcases hf with hf | hf
  · intro hreason
    have hcurrent := currentFindings_reason divide policy h hf
    rw [hreason] at hcurrent
    exact counterSpecs_apart spec hspec hcurrent
  · cases hf

/-- Two snapshots of one builder, whatever was recorded before the first of them: for each of the
operational counters, the second one assessed against the first has a finding exactly when enough
was recorded in between, and the finding shows how much that was. Without a baseline there is none.
The violations are also counted source by source. -/
theorem baseline_reports_between (earlier between : List TrackerCall) {h h' : BuilderHealth}
    (hshows : h.Shows (OperationalHealthTracker.new.recordAll earlier))
    (hshows' : h'.Shows ((OperationalHealthTracker.new.recordAll earlier).recordAll between)) :
    (∀ spec ∈ operationalSpecs,
      ((∃ f ∈ (h'.assess divide (some h) policy).findings, f.reason = spec.2.2) ↔
        policy.counterDeltaDegraded ≤ between.countP (TrackerCall.counts spec.2.2)) ∧
      (∀ f ∈ (h'.assess divide (some h) policy).findings, f.reason = spec.2.2 →
        f.observed = .count (between.countP (TrackerCall.counts spec.2.2)) ∧
        (f.severity = .critical ↔
          policy.counterDeltaCritical ≤ between.countP (TrackerCall.counts spec.2.2))) ∧
      ∀ f ∈ (h'.assess divide none policy).findings, f.reason ≠ spec.2.2) ∧
    ∀ name, ((OperationalHealthTracker.new.recordAll earlier).sourceTransportTimeoutViolations.get?
      name).getD 0 = earlier.countP (TrackerCall.violationOf name) := by
  refine ⟨?_, ?_⟩
  · intro spec hoperational
    have hspec : spec ∈ counterSpecs := List.mem_of_mem_take hoperational
    have hprior := hshows.counter spec hoperational
    have hcurrent := hshows'.counter spec hoperational
    rw [OperationalHealthTracker.recordAll_counter] at hcurrent
    have hdelta : max 0 (max 0 (spec.2.1 h') - max 0 (spec.2.1 h)) =
        (between.countP (TrackerCall.counts spec.2.2) : ℤ) := by
      rw [hprior, hcurrent]
      omega
    have hmem : ∀ f : BuilderHealthFinding R,
        f ∈ h'.findings divide (some h) policy ∧ f.reason = spec.2.2 ↔ _ :=
      fun f => (mem_findings_counter divide policy h' h hspec).trans mem_deltaFinding
    rw [hdelta] at hmem
    refine ⟨⟨?_, ?_⟩, ?_, fun f hf => counter_unseen divide policy h' hspec hf⟩
    · rintro ⟨f, hf⟩
      exact ((hmem f).mp hf).1
    · intro hle
      exact ⟨_, (hmem _).mpr ⟨hle, rfl⟩⟩
    · intro f hf hreason
      have hmade := ((hmem f).mp ⟨hf, hreason⟩).2
      rw [hmade]
      refine ⟨rfl, ?_⟩
      simp only
      split
      · rename_i hcritical
        exact ⟨fun _ => hcritical, fun _ => rfl⟩
      · rename_i hcritical
        exact iff_of_false (by decide) hcritical
  · intro name
    rw [OperationalHealthTracker.recordAll_violations]
    exact Nat.zero_add _

end

/-- A queue timeout before the first snapshot, five source timeouts between the two. -/
theorem baseline_reports_between_five :
    let findings :=
      ((loadedBuilder 0 1 5).assess quotient (some (loadedBuilder 0 1 0)) halfPolicy).findings
    (∃ f ∈ findings, f.reason = .sourceTimeoutsIncreased) ∧
      ¬ ∃ f ∈ findings, f.reason = .queueTimeoutsIncreased := by
  have hshows : (loadedBuilder 0 1 0).Shows
      (OperationalHealthTracker.new.recordAll [.recordQueueTimeout]) := ⟨rfl, rfl, rfl, rfl, rfl⟩
  have hshows' : (loadedBuilder 0 1 5).Shows
      ((OperationalHealthTracker.new.recordAll [.recordQueueTimeout]).recordAll
        (List.replicate 5 .recordSourceTimeout)) := ⟨rfl, rfl, rfl, rfl, rfl⟩
  have hreports := (baseline_reports_between quotient halfPolicy [.recordQueueTimeout]
    (List.replicate 5 .recordSourceTimeout) hshows hshows').1
  constructor
  · exact (hreports ("source_timeout_count", BuilderHealth.sourceTimeoutCount,
      .sourceTimeoutsIncreased) (.tail _ (.head _))).1.mpr (by decide)
  · intro hfound
    exact absurd ((hreports ("queue_timeout_count", BuilderHealth.queueTimeoutCount,
      .queueTimeoutsIncreased) (.head _)).1.mp hfound) (by decide)

end Coalestra
