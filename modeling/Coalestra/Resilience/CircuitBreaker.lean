import Mathlib.Algebra.Order.Ring.Rat
import Mathlib.Tactic.Linarith
import Coalestra.Lib.Dict
import Coalestra.Lib.Runs

/-! # Circuit breaker

`resilience/circuit_breaker.py` with the policy of `resilience/policy.py`. The lock of the breaker is
never held across an `await`, so each operation is one step. An attempt is a `before_call` that was
admitted; its outcome reaches the circuit by identity alone. -/

namespace Coalestra
set_option autoImplicit false
set_option maxHeartbeats 250000

inductive CircuitState
  | closed
  | opened
  | halfOpen
  deriving DecidableEq, Repr

/-- Identity boundary used to isolate circuit-breaker failures. -/
inductive CircuitScope
  | ofSource
  | ofNamespace
  | ofSubject
  | ofResource
  deriving DecidableEq, Repr

/-- The parts of a resource key that `identity_for` reads. -/
class KeyText (K : Type) where
  namespaceOf : K → String
  name : K → String
  subject : K → String
  str : K → String

/-- Stable identity for one independently protected failure domain. -/
structure CircuitIdentity where
  source : String
  scope : CircuitScope
  discriminator : String
  deriving DecidableEq, Repr

/-- `CircuitBreaker.identity_for`; `source` is the stripped name, which is not empty. -/
def identityFor {K : Type} [KeyText K] (source : String) (key : K) : CircuitScope → CircuitIdentity
  | .ofSource => ⟨source, .ofSource, ""⟩
  | .ofNamespace => ⟨source, .ofNamespace, KeyText.namespaceOf key⟩
  | .ofSubject =>
    ⟨source, .ofSubject,
      if KeyText.subject key = "" then KeyText.namespaceOf key ++ ":" ++ KeyText.name key
      else KeyText.subject key⟩
  | .ofResource => ⟨source, .ofResource, KeyText.str key⟩

/-- Circuit-breaker behavior for one source. The fields after the data are the checks of
`__post_init__`. -/
structure CircuitBreakerPolicy where
  scope : CircuitScope
  failureThreshold : ℕ
  recoveryTimeoutSeconds : ℚ
  enabled : Bool
  threshold_pos : 1 ≤ failureThreshold
  recovery_nonneg : 0 ≤ recoveryTimeoutSeconds

theorem ten_seconds_nonneg : (0 : ℚ) ≤ 10 := by norm_num

structure Circuit where
  state : CircuitState
  failures : ℕ
  openedAt : ℚ
  halfOpenProbeActive : Bool

def Circuit.new : Circuit := ⟨.closed, 0, 0, false⟩

/-! ## Operations on one circuit -/

/-- The end of `before_call`: one probe at a time. -/
def Circuit.admitProbe (c : Circuit) : Circuit × Bool :=
  if c.halfOpenProbeActive then (c, false) else ({ c with halfOpenProbeActive := true }, true)

/-- The critical section of `before_call`; `false` is `CircuitOpenError`. -/
def Circuit.beforeCall (policy : CircuitBreakerPolicy) (now : ℚ) (c : Circuit) : Circuit × Bool :=
  match c.state with
  | .closed => (c, true)
  | .opened =>
    if now - c.openedAt < policy.recoveryTimeoutSeconds then (c, false)
    else ({ c with state := .halfOpen }).admitProbe
  | .halfOpen => c.admitProbe

def Circuit.recordSuccess (_c : Circuit) : Circuit := ⟨.closed, 0, 0, false⟩

def Circuit.recordFailure (policy : CircuitBreakerPolicy) (now : ℚ) (c : Circuit) : Circuit :=
  let counted := { c with halfOpenProbeActive := false, failures := c.failures + 1 }
  if policy.failureThreshold ≤ counted.failures ∨ c.state = .halfOpen then
    { counted with state := .opened, openedAt := now }
  else counted

def Circuit.recordAbandoned (now : ℚ) (c : Circuit) : Circuit :=
  if c.state = .halfOpen ∧ c.halfOpenProbeActive = true then
    { c with state := .opened, openedAt := now, halfOpenProbeActive := false }
  else { c with halfOpenProbeActive := false }

def Circuit.recordSkipped (c : Circuit) : Circuit := { c with halfOpenProbeActive := false }

/-! ## The breaker -/

/-- Which `record_*` an attempt ends with. -/
inductive CircuitOutcome
  | success
  | failure
  | abandoned
  | skipped
  deriving DecidableEq, Repr

/-- `CircuitBreaker._circuits`. -/
abbrev Circuits := Dict CircuitIdentity Circuit

namespace Circuits

/-- `_circuits.setdefault(identity, _Circuit())`. -/
def circuit (b : Circuits) (identity : CircuitIdentity) : Circuit :=
  (b.get? identity).getD .new

def beforeCall (b : Circuits) (identity : CircuitIdentity) (policy : CircuitBreakerPolicy)
    (now : ℚ) : Circuits × Bool :=
  if policy.enabled then
    let (c, admitted) := (b.circuit identity).beforeCall policy now
    (b.set identity c, admitted)
  else (b, true)

def record (b : Circuits) (identity : CircuitIdentity) (policy : CircuitBreakerPolicy) (now : ℚ)
    (outcome : CircuitOutcome) : Circuits :=
  if policy.enabled then
    match outcome with
    | .success => b.set identity (b.circuit identity).recordSuccess
    | .failure => b.set identity ((b.circuit identity).recordFailure policy now)
    | .abandoned =>
      match b.get? identity with
      | none => b
      | some c => b.set identity (c.recordAbandoned now)
    | .skipped =>
      match b.get? identity with
      | none => b
      | some c => b.set identity c.recordSkipped
  else b

/-- The circuit of `identity` after `record`. -/
def recorded (c : Circuit) (policy : CircuitBreakerPolicy) (now : ℚ) : CircuitOutcome → Circuit
  | .success => c.recordSuccess
  | .failure => c.recordFailure policy now
  | .abandoned => c.recordAbandoned now
  | .skipped => c.recordSkipped

@[simp] theorem circuit_set_self (b : Circuits) (identity : CircuitIdentity) (c : Circuit) :
    circuit (b.set identity c) identity = c := by
  rw [circuit, Dict.get?_set_self, Option.getD_some]

theorem circuit_set_ne (b : Circuits) {identity other : CircuitIdentity} (c : Circuit)
    (h : other ≠ identity) : circuit (b.set identity c) other = b.circuit other := by
  rw [circuit, circuit, Dict.get?_set_ne b c h]

section
variable {policy : CircuitBreakerPolicy} {b : Circuits} {identity : CircuitIdentity} {now : ℚ}

theorem beforeCall_enabled (h : policy.enabled = true) :
    b.beforeCall identity policy now =
      (b.set identity ((b.circuit identity).beforeCall policy now).1,
        ((b.circuit identity).beforeCall policy now).2) := by
  rw [beforeCall, if_pos h]

theorem beforeCall_ne {other : CircuitIdentity} (hne : other ≠ identity) :
    (b.beforeCall identity policy now).1.circuit other = b.circuit other := by
  unfold beforeCall
  split
  · exact circuit_set_ne b _ hne
  · rfl

theorem record_ne {other : CircuitIdentity} {outcome : CircuitOutcome} (hne : other ≠ identity) :
    (b.record identity policy now outcome).circuit other = b.circuit other := by
  unfold record
  split
  · cases outcome with
    | success => exact circuit_set_ne b _ hne
    | failure => exact circuit_set_ne b _ hne
    | abandoned =>
      cases b.get? identity with
      | none => rfl
      | some c => exact circuit_set_ne b _ hne
    | skipped =>
      cases b.get? identity with
      | none => rfl
      | some c => exact circuit_set_ne b _ hne
  · rfl

/-- A circuit that does not exist yet is not changed by an outcome that does not create it. -/
theorem record_self (h : policy.enabled = true) (outcome : CircuitOutcome) :
    (b.record identity policy now outcome).circuit identity =
      recorded (b.circuit identity) policy now outcome := by
  unfold record
  rw [if_pos h]
  cases outcome with
  | success => exact circuit_set_self b identity _
  | failure => exact circuit_set_self b identity _
  | abandoned =>
    cases hc : b.get? identity with
    | none =>
      simp [circuit, hc, recorded, Circuit.recordAbandoned, Circuit.new]
    | some c =>
      simp only [circuit_set_self]
      rw [circuit, hc, Option.getD_some, recorded]
  | skipped =>
    cases hc : b.get? identity with
    | none =>
      simp [circuit, hc, recorded, Circuit.recordSkipped, Circuit.new]
    | some c =>
      simp only [circuit_set_self]
      rw [circuit, hc, Option.getD_some, recorded]

end
end Circuits

/-! ## What an operation does -/

/-- An admission leaves a closed circuit alone, or makes the attempt the probe of a half-open one. -/
inductive Circuit.Admits (policy : CircuitBreakerPolicy) (now : ℚ) (c : Circuit) : Circuit → Prop
  | closed : c.state = .closed → Admits policy now c c
  | probe : c.state ≠ .closed → c.halfOpenProbeActive = false →
      (c.state = .opened → c.openedAt + policy.recoveryTimeoutSeconds ≤ now) →
      Admits policy now c { c with state := .halfOpen, halfOpenProbeActive := true }

theorem Circuit.beforeCall_admits {policy : CircuitBreakerPolicy} {now : ℚ} {c : Circuit}
    (h : (c.beforeCall policy now).2 = true) :
    Circuit.Admits policy now c (c.beforeCall policy now).1 := by
  obtain ⟨state, failures, openedAt, active⟩ := c
  cases state with
  | closed => exact .closed rfl
  | opened =>
    simp only [Circuit.beforeCall] at h ⊢
    split at h
    · cases h
    · rename_i hwindow
      rw [if_neg hwindow]
      cases active with
      | true => cases h
      | false => exact .probe (by simp) rfl (fun _ => by linarith)
  | halfOpen =>
    cases active with
    | true => cases h
    | false => exact .probe (by simp) rfl (by simp)

/-- A rejection leaves an open circuit without a probe alone. -/
theorem Circuit.beforeCall_rejects {policy : CircuitBreakerPolicy} {now : ℚ} {c : Circuit}
    (hopened : c.state = .opened → c.halfOpenProbeActive = false)
    (h : (c.beforeCall policy now).2 = false) : (c.beforeCall policy now).1 = c := by
  obtain ⟨state, failures, openedAt, active⟩ := c
  cases state with
  | closed => rfl
  | opened =>
    simp only [Circuit.beforeCall] at h ⊢
    split at h
    · rename_i hwindow
      rw [if_pos hwindow]
    · have hactive : active = false := hopened rfl
      rw [hactive] at h
      cases h
  | halfOpen =>
    cases active with
    | true => rfl
    | false => cases h

/-- Every outcome releases the probe. -/
theorem Circuits.recorded_releases (c : Circuit) (policy : CircuitBreakerPolicy) (now : ℚ)
    (outcome : CircuitOutcome) : (recorded c policy now outcome).halfOpenProbeActive = false := by
  cases outcome with
  | success => rfl
  | failure =>
    simp only [recorded, Circuit.recordFailure]
    split <;> rfl
  | abandoned =>
    simp only [recorded, Circuit.recordAbandoned]
    split <;> rfl
  | skipped => rfl

/-- An outcome closes the circuit, opens it now, or leaves its state as it was. -/
theorem Circuits.recorded_state (c : Circuit) (policy : CircuitBreakerPolicy) (now : ℚ)
    (outcome : CircuitOutcome) :
    (outcome = .success ∧ (recorded c policy now outcome).state = .closed) ∨
    ((recorded c policy now outcome).state = .opened ∧
      (recorded c policy now outcome).openedAt = now) ∨
    ((recorded c policy now outcome).state = c.state ∧
      (recorded c policy now outcome).openedAt = c.openedAt) := by
  cases outcome with
  | success => exact .inl ⟨rfl, rfl⟩
  | failure =>
    right
    simp only [recorded, Circuit.recordFailure]
    split
    · exact .inl ⟨rfl, rfl⟩
    · exact .inr ⟨rfl, rfl⟩
  | abandoned =>
    right
    simp only [recorded, Circuit.recordAbandoned]
    split
    · exact .inl ⟨rfl, rfl⟩
    · exact .inr ⟨rfl, rfl⟩
  | skipped => exact .inr (.inr ⟨rfl, rfl⟩)

end Coalestra
