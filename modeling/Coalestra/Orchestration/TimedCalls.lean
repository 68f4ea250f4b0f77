import Coalestra.Core.Deadline
import Coalestra.Core.SourceTimeout

/-! # Source calls within their budget

`SourceCalls.with_timeout` with the budget it computes (`_timeout_budget`), the check of the
declared transport timeout (`_ensure_transport_timeout_fits_budget`) and the violations it records.
The guarantee is the one that `SourceCatalog` has inspected. Message texts, metrics and the payload
of events are left out; sinks do not raise. -/

namespace Coalestra
set_option autoImplicit false
set_option maxHeartbeats 250000

/-! ## The budget -/

/-- Where a source call is refused before the source is called. -/
inductive CallRefusal
  | deadlineBefore
  | deadlineBudget
  | sourceBudget
  deriving DecidableEq, Repr

/-- `type(error).__name__`. -/
def CallRefusal.typeName : CallRefusal → String
  | deadlineBefore | deadlineBudget => "SnapshotDeadlineExceededError"
  | sourceBudget => "SourceTimeoutError"

structure TimeoutBudget where
  seconds : Option ℚ
  limitedByDeadline : Bool
  deriving DecidableEq, Repr

def timeoutBudget (configuredTimeout deadline : Option ℚ) (now : ℚ) :
    Except CallRefusal TimeoutBudget :=
  match deadline with
  | none => .ok ⟨configuredTimeout, false⟩
  | some deadline =>
    if deadline - now ≤ 0 then .error .deadlineBefore
    else if configuredTimeout.all fun timeout => decide (deadline - now ≤ timeout) then
      .ok ⟨some (deadline - now), true⟩
    else .ok ⟨configuredTimeout, false⟩

/-- The declared transport timeout of a protected source. -/
def SourceTimeoutGuarantee.protectedTransport (g : SourceTimeoutGuarantee) : Option ℚ :=
  if g.status = .isProtected then g.transportTimeoutSeconds else none

/-- What one call is given: its source's guarantee, the deadline of its context and the two graces
of the builder, which refuses negative ones. -/
structure SourceCallLimits where
  guarantee : SourceTimeoutGuarantee
  deadline : Option ℚ
  transportTimeoutGrace : ℚ
  deadlineDispatchGrace : ℚ
  transport_nonneg : 0 ≤ transportTimeoutGrace
  dispatch_nonneg : 0 ≤ deadlineDispatchGrace

/-- The budget of a call and whether it is dispatched under deadline pressure. -/
structure DispatchBudget where
  budget : TimeoutBudget
  underPressure : Bool
  deriving DecidableEq, Repr

namespace SourceCallLimits
variable (limits : SourceCallLimits)

def ensureTransportTimeoutFitsBudget (budget : TimeoutBudget) :
    Except CallRefusal DispatchBudget :=
  match limits.guarantee.protectedTransport, budget.seconds with
  | some transport, some seconds =>
    if transport < seconds then .ok ⟨budget, false⟩
    else if budget.limitedByDeadline = true ∧
        transport < seconds + limits.deadlineDispatchGrace then
      .ok ⟨budget, true⟩
    else if budget.limitedByDeadline then .error .deadlineBudget
    else .error .sourceBudget
  | _, _ => .ok ⟨budget, false⟩

def enter (now : ℚ) : Except CallRefusal DispatchBudget := do
  limits.ensureTransportTimeoutFitsBudget
    (← timeoutBudget limits.guarantee.sourceTimeoutSeconds limits.deadline now)

end SourceCallLimits

/-! ## The call -/

inductive ViolationOutcome
  | coalestraTimeout
  | failedLate
  | completedLate
  deriving DecidableEq, Repr

/-- How `with_timeout` ends once the source was called. -/
inductive SourceCallEnd (R E : Type)
  | returned (result : R)
  | raised (e : E)
  | cancelled
  | snapshotDeadlineExceeded
  | sourceTimeout
  deriving DecidableEq, Repr

namespace SourceCallLimits
variable (limits : SourceCallLimits)

/-- `_record_transport_timeout_violation`. -/
def transportTimeoutViolation (elapsed : ℚ) (outcome : ViolationOutcome) (force : Bool) :
    Option ViolationOutcome :=
  match limits.guarantee.protectedTransport with
  | none => none
  | some transport =>
    if force = false ∧ elapsed ≤ transport + limits.transportTimeoutGrace then none
    else some outcome

def close {R E : Type} (budget : DispatchBudget) (startedAt endedAt : ℚ) :
    AwaitEnd R E → SourceCallEnd R E × Option ViolationOutcome
  | .timedOut =>
    (if budget.budget.limitedByDeadline then .snapshotDeadlineExceeded else .sourceTimeout,
      limits.transportTimeoutViolation (max 0 (endedAt - startedAt)) .coalestraTimeout true)
  | .task (.value result) =>
    (.returned result,
      limits.transportTimeoutViolation (max 0 (endedAt - startedAt)) .completedLate false)
  | .task (.error e) =>
    (.raised e, limits.transportTimeoutViolation (max 0 (endedAt - startedAt)) .failedLate false)
  | .task .cancelled | .interrupted =>
    (.cancelled, limits.transportTimeoutViolation (max 0 (endedAt - startedAt)) .failedLate false)

def withTimeout (R E : Type) : AwaitScript DispatchBudget R E CallRefusal
    (SourceCallEnd R E × Option ViolationOutcome) where
  enter := limits.enter
  timeout budget := budget.budget.seconds
  close := limits.close

end SourceCallLimits

/-! ## What a budget promises -/

theorem timeoutBudget_error {configured deadline : Option ℚ} {now : ℚ} {e : CallRefusal}
    (h : timeoutBudget configured deadline now = .error e) :
    e = .deadlineBefore ∧ ∃ d, deadline = some d ∧ d ≤ now := by
  cases deadline with
  | none => simp [timeoutBudget] at h
  | some d =>
    simp only [timeoutBudget] at h
    split at h
    · rename_i hover
      simp at h
      exact ⟨h.symm, d, rfl, by linarith⟩
    · split at h <;> simp at h

/-- The budget is the time to the deadline where the configured timeout is not shorter, and the
configured timeout otherwise. -/
theorem timeoutBudget_ok {configured deadline : Option ℚ} {now : ℚ} {budget : TimeoutBudget}
    (h : timeoutBudget configured deadline now = .ok budget) :
    (budget.limitedByDeadline = true ∧ ∃ d, deadline = some d ∧ now < d ∧
      budget.seconds = some (d - now) ∧ ∀ t, configured = some t → d - now ≤ t) ∨
    (budget.limitedByDeadline = false ∧ budget.seconds = configured ∧
      ∀ d, deadline = some d → ∃ t, configured = some t ∧ now + t < d) := by
  cases deadline with
  | none =>
    simp [timeoutBudget] at h
    exact .inr ⟨by simp [← h], by simp [← h], by simp⟩
  | some d =>
    simp only [timeoutBudget] at h
    split at h
    · simp at h
    · rename_i hleft
      simp only [not_le] at hleft
      split at h <;> rename_i hshort <;> rw [Except.ok.injEq] at h <;> subst h
      · exact .inl ⟨rfl, d, rfl, by linarith, rfl, by simpa [Option.all_eq_true] using hshort⟩
      · cases configured with
        | none => simp at hshort
        | some t =>
          simp at hshort
          exact .inr ⟨rfl, rfl, fun d' hd => ⟨t, rfl, by simp at hd; linarith⟩⟩

namespace SourceCallLimits
variable {limits : SourceCallLimits}

/-- The budget of a call that is let through, with its declared transport timeout below it, or
below what the dispatch grace adds to the deadline. -/
theorem enter_ok {now : ℚ} {budget : DispatchBudget} (h : limits.enter now = .ok budget) :
    timeoutBudget limits.guarantee.sourceTimeoutSeconds limits.deadline now = .ok budget.budget ∧
      ∀ transport seconds, limits.guarantee.protectedTransport = some transport →
        budget.budget.seconds = some seconds →
          (budget.underPressure = false ∧ transport < seconds) ∨
          (budget.underPressure = true ∧ budget.budget.limitedByDeadline = true ∧
            seconds ≤ transport ∧ transport < seconds + limits.deadlineDispatchGrace) := by
  unfold enter at h
  cases hbudget : timeoutBudget limits.guarantee.sourceTimeoutSeconds limits.deadline now with
  | error e => simp [hbudget, bind, Except.bind] at h
  | ok given =>
    simp only [hbudget, bind, Except.bind, ensureTransportTimeoutFitsBudget] at h
    split at h
    · rename_i transport seconds htransport hseconds
      split at h
      · rename_i hfits
        rw [Except.ok.injEq] at h
        subst h
        refine ⟨rfl, ?_⟩
        simp [htransport, hseconds, hfits]
      · rename_i hshort
        simp only [not_lt] at hshort
        split at h
        · rename_i hgrace
          rw [Except.ok.injEq] at h
          subst h
          refine ⟨rfl, ?_⟩
          simp [htransport, hseconds, hgrace, hshort]
        · split at h <;> simp at h
    · rename_i hnone
      rw [Except.ok.injEq] at h
      subst h
      exact ⟨rfl, fun transport seconds ht hs => absurd hs (hnone transport seconds ht)⟩

/-- Why a call is refused. Within a source's own timeout its declared transport timeout always
fits. -/
def Refuses (limits : SourceCallLimits) (refusedAt : ℚ) (refusal : CallRefusal) : Prop :=
  refusal.typeName = "SnapshotDeadlineExceededError" ∧ ∃ d, limits.deadline = some d ∧
    match refusal with
    | .deadlineBefore => d ≤ refusedAt
    | .deadlineBudget => refusedAt < d ∧ ∃ transport,
        limits.guarantee.protectedTransport = some transport ∧
          d + limits.deadlineDispatchGrace ≤ refusedAt + transport
    | .sourceBudget => False

/-- The guarantee is one that `inspect_source_timeout_guarantee` gives for a source. -/
def Inspected (limits : SourceCallLimits) : Prop :=
  ∃ (K P : Type) (s : SourceObject K P), s.inspectSourceTimeoutGuarantee = .ok limits.guarantee

/-- The guarantee of a source that the catalog accepts leaves room for the transport timeout. -/
theorem Inspected.room (h : limits.Inspected) {transport : ℚ}
    (htransport : limits.guarantee.protectedTransport = some transport) : 0 < transport ∧
      ∀ timeout, limits.guarantee.sourceTimeoutSeconds = some timeout → transport < timeout := by
  obtain ⟨K, P, s, hg⟩ := h
  obtain ⟨hdeclares, -, -, -, hprotected⟩ := SourceObject.inspect_ok hg
  simp only [SourceTimeoutGuarantee.protectedTransport] at htransport
  split at htransport
  · rename_i hstatus
    obtain ⟨hblocking, -, t, ht, hlt⟩ := hprotected.mp hstatus
    have hbounded := hdeclares.bounded (by simp [hblocking])
    rw [htransport] at hbounded
    have hsame := hbounded.unique ht
    rw [Option.some.injEq] at hsame
    refine ⟨hbounded.pos, ?_⟩
    intro timeout htimeout
    rw [hsame]
    apply hlt
    rw [← htimeout]
    exact hdeclares.reads
  · simp at htransport

/-- A call that is let through could end, by its declared transport timeout, within the dispatch
grace of its deadline. -/
theorem enter_in_time {now : ℚ} {budget : DispatchBudget} (h : limits.enter now = .ok budget)
    {transport d : ℚ} (htransport : limits.guarantee.protectedTransport = some transport)
    (hd : limits.deadline = some d) : now + transport < d + limits.deadlineDispatchGrace := by
  obtain ⟨hbudget, hfits⟩ := enter_ok h
  have hgrace := limits.dispatch_nonneg
  obtain ⟨-, d', hd', -, hseconds, -⟩ | ⟨hlimited, hseconds, hroom⟩ := timeoutBudget_ok hbudget
  · rw [hd, Option.some.injEq] at hd'
    subst hd'
    obtain ⟨-, hlt⟩ | ⟨-, -, -, hlt⟩ := hfits transport _ htransport hseconds <;> linarith
  · obtain ⟨t, ht, hlt⟩ := hroom d hd
    rw [ht] at hseconds
    obtain ⟨-, hlt'⟩ | ⟨-, hlimited', -⟩ := hfits transport t htransport hseconds
    · linarith
    · simp [hlimited] at hlimited'

theorem enter_error (hg : limits.Inspected) {now : ℚ} {refusal : CallRefusal}
    (h : limits.enter now = .error refusal) : limits.Refuses now refusal := by
  unfold enter at h
  cases hbudget : timeoutBudget limits.guarantee.sourceTimeoutSeconds limits.deadline now with
  | error e =>
    simp only [hbudget, bind, Except.bind, Except.error.injEq] at h
    subst h
    obtain ⟨rfl, d, hd, hover⟩ := timeoutBudget_error hbudget
    exact ⟨rfl, d, hd, hover⟩
  | ok given =>
    simp only [hbudget, bind, Except.bind, ensureTransportTimeoutFitsBudget] at h
    split at h
    · rename_i transport seconds htransport hseconds
      split at h
      · simp at h
      · rename_i hshort
        simp only [not_lt] at hshort
        obtain ⟨hlimited, d, hd, hnow, hleft, -⟩ | ⟨hlimited, hconfigured, -⟩ :=
          timeoutBudget_ok hbudget
        · -- the deadline is nearer than the transport timeout allows
          rw [hseconds, Option.some.injEq] at hleft
          simp only [hlimited, true_and, if_true] at h
          split at h
          · simp at h
          · rename_i hgrace
            rw [Except.error.injEq] at h
            subst h
            simp only [not_lt] at hgrace
            exact ⟨rfl, d, hd, hnow, transport, htransport, by linarith⟩
        · -- the source's own timeout leaves room for its transport
          have hroom := (hg.room htransport).2 seconds (hconfigured.symm.trans hseconds)
          linarith
    · simp at h

end SourceCallLimits

/-! ## Every run of a call -/

/-- Why a call ended as it did: a result and an error are the operation's own, and an error of the
call itself is due. -/
def SourceCallEnd.Justified {R E : Type} (limits : SourceCallLimits) (a : TimedAwait R E)
    (enteredAt startedAt endedAt : ℚ) : SourceCallEnd R E → Prop
  | .returned result => a.operation = .done (.value result)
  | .raised e => a.operation = .done (.error e)
  | .cancelled => a.operation = .done .cancelled ∨ a.interrupted = true
  | .snapshotDeadlineExceeded => ∃ d, limits.deadline = some d ∧ d ≤ endedAt
  | .sourceTimeout => ∃ t, limits.guarantee.sourceTimeoutSeconds = some t ∧
      startedAt + t ≤ endedAt ∧ ∀ d, limits.deadline = some d → enteredAt + t < d

/-- The call was ended by its own timer. -/
def SourceCallEnd.timedOut {R E : Type} : SourceCallEnd R E → Bool
  | .snapshotDeadlineExceeded | .sourceTimeout => true
  | _ => false

namespace SourceCallLimits
variable {limits : SourceCallLimits} {R E : Type}

theorem transportTimeoutViolation_isSome {elapsed : ℚ} {outcome : ViolationOutcome}
    {force : Bool} : (limits.transportTimeoutViolation elapsed outcome force).isSome = true ↔
      ∃ transport, limits.guarantee.protectedTransport = some transport ∧
        (force = true ∨ transport + limits.transportTimeoutGrace < elapsed) := by
  unfold transportTimeoutViolation
  cases limits.guarantee.protectedTransport with
  | none => simp
  | some transport =>
    cases force with
    | true => simp
    | false => simp [apply_ite Option.isSome]

theorem close_justified {budget : DispatchBudget} {enteredAt startedAt endedAt : ℚ}
    {a : TimedAwait R E} {ending : AwaitEnd R E}
    (h : (limits.withTimeout R E).Follows budget enteredAt startedAt endedAt a)
    (hended : a.stage = .ended ending) :
    (limits.close budget startedAt endedAt ending).1.Justified limits a enteredAt startedAt
      endedAt := by
  have hshape := h.shape
  simp only [TimedAwait.Shape, hended] at hshape
  cases ending with
  | task result =>
    cases result with
    | value result | error e => exact hshape
    | cancelled => exact .inl hshape
  | interrupted => exact .inr hshape.2
  | timedOut =>
    obtain ⟨-, seconds, hseconds, hexpired⟩ := hshape
    rw [h.timeout] at hseconds
    simp only [withTimeout] at hseconds
    have hstarted := h.started
    obtain ⟨hlimited, d, hd, -, hleft, -⟩ | ⟨hlimited, hconfigured, hroom⟩ :=
      timeoutBudget_ok (enter_ok h.entered).1
    · rw [hleft, Option.some.injEq] at hseconds
      simp only [close, hlimited, if_true]
      exact ⟨d, hd, by linarith⟩
    · simp only [close, hlimited, Bool.false_eq_true, if_false]
      rw [hconfigured] at hseconds
      refine ⟨seconds, hseconds, hexpired, ?_⟩
      intro d hd
      obtain ⟨t, ht, hlt⟩ := hroom d hd
      rw [hseconds, Option.some.injEq] at ht
      rwa [ht]

/-- A violation is recorded for a protected source whose call timed out or took longer than its
transport timeout and the grace. -/
theorem close_violation {budget : DispatchBudget} {startedAt endedAt : ℚ}
    {ending : AwaitEnd R E} (hg : limits.Inspected) :
    (limits.close budget startedAt endedAt ending).2.isSome = true ↔
      ∃ transport, limits.guarantee.protectedTransport = some transport ∧
        ((limits.close budget startedAt endedAt ending).1.timedOut = true ∨
          startedAt + transport + limits.transportTimeoutGrace < endedAt) := by
  have hlate : ∀ outcome,
      (limits.transportTimeoutViolation (max 0 (endedAt - startedAt)) outcome false).isSome = true ↔
        ∃ transport, limits.guarantee.protectedTransport = some transport ∧
          startedAt + transport + limits.transportTimeoutGrace < endedAt := by
    intro outcome
    rw [transportTimeoutViolation_isSome]
    refine exists_congr fun transport => and_congr_right fun htransport => ?_
    have hpos := (hg.room htransport).1
    have hgrace := limits.transport_nonneg
    rw [lt_max_iff]
    constructor
    · rintro (h | h | h)
      · simp at h
      · linarith
      · linarith
    · intro h
      exact .inr (.inr (by linarith))
  cases ending with
  | task result =>
    cases result with
    | value result | error e | cancelled => simp [close, SourceCallEnd.timedOut, hlate]
  | interrupted => simp [close, SourceCallEnd.timedOut, hlate]
  | timedOut =>
    simp only [close, transportTimeoutViolation_isSome]
    refine exists_congr fun transport => and_congr_right fun _ => ?_
    split <;> simp [SourceCallEnd.timedOut]

/-- A source that blocks in a thread for at most two seconds, by its own word. -/
def reportsSource : SourceObject ℕ ℕ where
  name := "reports"
  priority := 0
  supports := none
  dependencies := none
  fetch := true
  fetchMany := false
  derive := false
  timeoutSeconds := some (.number 3)
  queueTimeoutSeconds := none
  maxConcurrency := none
  maxBatchSize := none
  resiliencePolicy := none
  cacheSupports := false
  blockingIo := some (.flag true)
  blockingIoOffloaded := .flag true
  transportTimeoutSeconds := some (.number 2)

def reportsLimits : SourceCallLimits :=
  ⟨⟨"reports", .isProtected, true, true, true, some 2, some 3⟩, some 10, 0, 0, Rat.le_refl, Rat.le_refl⟩

/-- The timer fires after three seconds, and the call waits for the fetch, which takes four. -/
def fetchesTooLong : List (ScriptLabel ℕ Unit) :=
  [.enter, .start, .await .call, .tick 3, .await .wake, .tick 4, .await (.finish (.value 7)),
    .await .wake]

end SourceCallLimits
end Coalestra
