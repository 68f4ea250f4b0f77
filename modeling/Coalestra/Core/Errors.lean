import Coalestra.Lib.Dict

/-! # Errors

`core/errors.py`, as far as the orchestration inspects errors: the class, the path of a dependency
cycle and the failures of a resource. Message texts are left out. -/

namespace Coalestra
set_option autoImplicit false
set_option maxHeartbeats 250000

structure SourceFailure where
  source : String
  errorType : String
  deriving DecidableEq, Repr

/-- The exceptions a resolution raises or reports. -/
inductive Error (K : Type)
  | snapshotDeadlineExceeded
  | dependencyCycle (path : List K)
  | dependencyResolution (key : K) (source : String) (errors : List K)
  | resourceResolution (key : K) (failures : List SourceFailure)
  | other (typeName : String)
  deriving DecidableEq, Repr

namespace Error
variable {K : Type}

/-- `type(error).__name__`. -/
def typeName : Error K → String
  | snapshotDeadlineExceeded => "SnapshotDeadlineExceededError"
  | dependencyCycle _ => "DependencyCycleError"
  | dependencyResolution _ _ _ => "DependencyResolutionError"
  | resourceResolution _ _ => "ResourceResolutionError"
  | other typeName => typeName

/-- `SourceCalls.source_failure`. -/
def sourceFailure (source : String) (e : Error K) : SourceFailure := ⟨source, e.typeName⟩

/-- The error is a deadline error or lists one among its source failures. -/
def includesDeadline : Error K → Bool
  | snapshotDeadlineExceeded => true
  | resourceResolution _ failures =>
    failures.any fun f => f.errorType = "SnapshotDeadlineExceededError"
  | _ => false

end Error

/-- `SnapshotSession._errors_include_deadline`. -/
def errorsIncludeDeadline {K : Type} [DecidableEq K] (errors : Dict K (Error K)) : Bool :=
  errors.values.any Error.includesDeadline

/-- `SnapshotSession._deadline_resolution_errors`. -/
def deadlineResolutionErrors {K : Type} [DecidableEq K] (keys : List K) : Dict K (Error K) :=
  Dict.comprehend keys fun key =>
    some (.resourceResolution key [⟨"snapshot", "SnapshotDeadlineExceededError"⟩])

end Coalestra
