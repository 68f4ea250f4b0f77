import Coalestra.Orchestration.Runtime

/-! # Sources as they are given

The attributes of a source object that `SourceCatalog` and `inspect_source_timeout_guarantee` read,
unchecked, and the checks of `core/source_timeout.py`. A `source_timeout_seconds` or a
`transport_timeout_seconds` that is a number is taken as the float it is converted to. -/

namespace Coalestra
set_option autoImplicit false
set_option maxHeartbeats 250000

/-! ## Raw attributes -/

inductive ConfigError
  | typeError (message : String)
  | valueError (message : String)
  deriving DecidableEq, Repr

/-- A value where seconds are expected: a finite float, another float, or no number at all. -/
inductive RawSeconds
  | number (seconds : ℚ)
  | notFinite
  | notANumber
  deriving DecidableEq, Repr

inductive RawFlag
  | flag (value : Bool)
  | notABoolean
  deriving DecidableEq, Repr

/-- A `resilience_policy` attribute: a `SourceResiliencePolicy` or something else. -/
inductive RawPolicy (P : Type)
  | policy (policy : P)
  | foreign

/-- Whitespace, as `str.strip` sees it. -/
def isSpace (c : Char) : Bool :=
  let n := c.toNat
  decide (9 ≤ n ∧ n ≤ 13) || decide (28 ≤ n ∧ n ≤ 32) || decide (8192 ≤ n ∧ n ≤ 8202) ||
    decide (n ∈ [133, 160, 5760, 8232, 8233, 8239, 8287, 12288])

/-- `str.strip`. -/
def strip (s : String) : String :=
  String.ofList ((s.toList.dropWhile isSpace).reverse.dropWhile isSpace).reverse

/-- A source object; `none` is an attribute that is absent or `None`. The methods `fetch`,
`fetch_many` and `derive` matter only as callables. -/
structure SourceObject (K P : Type) where
  name : String
  priority : ℤ
  supports : Option (K → Except Fault Bool)
  dependencies : Option (K → Except Fault (List K))
  fetch : Bool
  fetchMany : Bool
  derive : Bool
  timeoutSeconds : Option RawSeconds
  queueTimeoutSeconds : Option RawSeconds
  maxConcurrency : Option ℤ
  maxBatchSize : Option ℤ
  resiliencePolicy : Option (RawPolicy P)
  cacheSupports : Bool
  blockingIo : Option RawFlag
  blockingIoOffloaded : RawFlag
  transportTimeoutSeconds : Option RawSeconds

/-! ## Timeout guarantees -/

inductive SourceTimeoutGuaranteeStatus
  | undeclared
  | nonBlocking
  | isProtected
  | unsafeNotOffloaded
  | unsafeTimeoutMissing
  | unsafeTimeoutNotWithinSource
  deriving DecidableEq, Repr

def SourceTimeoutGuaranteeStatus.value : SourceTimeoutGuaranteeStatus → String
  | undeclared => "undeclared"
  | nonBlocking => "non_blocking"
  | isProtected => "protected"
  | unsafeNotOffloaded => "unsafe_not_offloaded"
  | unsafeTimeoutMissing => "unsafe_timeout_missing"
  | unsafeTimeoutNotWithinSource => "unsafe_timeout_not_within_source"

structure SourceTimeoutGuarantee where
  source : String
  status : SourceTimeoutGuaranteeStatus
  declarationPresent : Bool
  blockingIo : Bool
  blockingIoOffloaded : Bool
  transportTimeoutSeconds : Option ℚ
  sourceTimeoutSeconds : Option ℚ
  deriving DecidableEq, Repr

def optionalPositiveSeconds (fieldName : String) : Option RawSeconds → Except ConfigError (Option ℚ)
  | none => .ok none
  | some .notANumber => .error (.typeError (fieldName ++ " must be a number or None"))
  | some .notFinite => .error (.valueError (fieldName ++ " must be finite and positive"))
  | some (.number seconds) =>
    if seconds ≤ 0 then .error (.valueError (fieldName ++ " must be finite and positive"))
    else .ok (some seconds)

namespace SourceObject
variable {K P : Type}

/-- The classification of a source that declares blocking I/O. -/
def blockingStatus (offloaded : Bool) (transportTimeout sourceTimeout : Option ℚ) :
    SourceTimeoutGuaranteeStatus :=
  if offloaded then
    match transportTimeout with
    | none => .unsafeTimeoutMissing
    | some transport =>
      if sourceTimeout.any fun timeout => decide (timeout ≤ transport) then
        .unsafeTimeoutNotWithinSource
      else .isProtected
  else .unsafeNotOffloaded

/-- `inspect_source_timeout_guarantee`. -/
def inspectSourceTimeoutGuarantee (s : SourceObject K P) :
    Except ConfigError SourceTimeoutGuarantee := do
  let sourceTimeout ←
    optionalPositiveSeconds ("source " ++ s.name ++ " timeout_seconds") s.timeoutSeconds
  match s.blockingIo with
  | none => .ok ⟨s.name, .undeclared, false, false, false, none, sourceTimeout⟩
  | some .notABoolean =>
    .error (.typeError ("source " ++ s.name ++ " blocking_io must be a boolean"))
  | some (.flag blockingIo) =>
    match s.blockingIoOffloaded with
    | .notABoolean =>
      .error (.typeError ("source " ++ s.name ++ " blocking_io_offloaded must be a boolean"))
    | .flag offloaded => do
      let transportTimeout ← optionalPositiveSeconds
        ("source " ++ s.name ++ " transport_timeout_seconds") s.transportTimeoutSeconds
      if blockingIo then
        .ok ⟨s.name, blockingStatus offloaded transportTimeout sourceTimeout, true, true,
          offloaded, transportTimeout, sourceTimeout⟩
      else if transportTimeout.isSome then
        .error (.valueError
          ("source " ++ s.name ++ " transport_timeout_seconds requires blocking_io=True"))
      else .ok ⟨s.name, .nonBlocking, true, false, offloaded, none, sourceTimeout⟩

end SourceObject

/-! ## What the checks accept -/

/-- Seconds that pass `optional_positive_seconds`, as the value it returns. -/
def RawSeconds.Reads : Option RawSeconds → Option ℚ → Prop
  | none, none => True
  | some (.number seconds), some value => 0 < seconds ∧ value = seconds
  | _, _ => False

theorem optionalPositiveSeconds_ok {fieldName : String} {raw : Option RawSeconds}
    {value : Option ℚ} :
    optionalPositiveSeconds fieldName raw = .ok value ↔ RawSeconds.Reads raw value := by
  cases raw with
  | none => cases value <;> simp [optionalPositiveSeconds, RawSeconds.Reads]
  | some raw =>
    cases raw with
    | notFinite => simp [optionalPositiveSeconds, RawSeconds.Reads]
    | notANumber => simp [optionalPositiveSeconds, RawSeconds.Reads]
    | number seconds =>
      by_cases h : seconds ≤ 0
      · cases value <;> simp [optionalPositiveSeconds, RawSeconds.Reads, h, not_lt.mpr h]
      · cases value with
        | none => simp [optionalPositiveSeconds, RawSeconds.Reads, h]
        | some value =>
          simp [optionalPositiveSeconds, RawSeconds.Reads, h, not_le.mp h, eq_comm]

/-- Seconds that pass the check are read as one value, and that value is positive. -/
theorem RawSeconds.Reads.unique {raw : Option RawSeconds} {a b : Option ℚ}
    (ha : RawSeconds.Reads raw a) (hb : RawSeconds.Reads raw b) : a = b := by
  have h : optionalPositiveSeconds "" raw = .ok a := optionalPositiveSeconds_ok.mpr ha
  rw [(optionalPositiveSeconds_ok).mpr hb, Except.ok.injEq] at h
  exact h.symm

theorem RawSeconds.Reads.pos {raw : Option RawSeconds} {seconds : ℚ}
    (h : RawSeconds.Reads raw (some seconds)) : 0 < seconds := by
  cases raw with
  | none => exact h.elim
  | some raw =>
    cases raw with
    | number value =>
      obtain ⟨hpos, rfl⟩ := h
      exact hpos
    | notFinite => exact h.elim
    | notANumber => exact h.elim

namespace SourceObject
variable {K P : Type}

/-- The timeout declaration is well typed, positive, and gives a transport timeout only to a
blocking source. -/
structure Declares (s : SourceObject K P) (source transport : Option ℚ) : Prop where
  reads : RawSeconds.Reads s.timeoutSeconds source
  bounded : s.blockingIo ≠ none → RawSeconds.Reads s.transportTimeoutSeconds transport
  undeclared : s.blockingIo = none → transport = none
  blockingIo : s.blockingIo ≠ some .notABoolean
  offloaded : s.blockingIo ≠ none → s.blockingIoOffloaded ≠ .notABoolean
  unblocked : s.blockingIo = some (.flag false) → transport = none

/-- Blocking I/O in a thread, with a transport timeout below the source's own. -/
def Protected (s : SourceObject K P) : Prop :=
  s.blockingIo = some (.flag true) ∧ s.blockingIoOffloaded = .flag true ∧
    ∃ transport, RawSeconds.Reads s.transportTimeoutSeconds (some transport) ∧
      ∀ timeout, RawSeconds.Reads s.timeoutSeconds (some timeout) → transport < timeout

theorem blockingStatus_protected {offloaded : Bool} {transport source : Option ℚ} :
    blockingStatus offloaded transport source = .isProtected ↔
      offloaded = true ∧
        ∃ t, transport = some t ∧ ∀ timeout, source = some timeout → t < timeout := by
  cases offloaded with
  | false => simp [blockingStatus]
  | true =>
    cases transport with
    | none => simp [blockingStatus]
    | some t => cases source <;> simp [blockingStatus]

/-- An inspection that succeeds returns what was declared. -/
theorem inspect_ok {s : SourceObject K P} {g : SourceTimeoutGuarantee}
    (h : s.inspectSourceTimeoutGuarantee = .ok g) :
    s.Declares g.sourceTimeoutSeconds g.transportTimeoutSeconds ∧ g.source = s.name ∧
      g.declarationPresent = s.blockingIo.isSome ∧
      (g.blockingIo = true ↔ s.blockingIo = some (.flag true)) ∧
      (g.status = .isProtected ↔ s.Protected) := by
  unfold inspectSourceTimeoutGuarantee at h
  cases hsource : optionalPositiveSeconds ("source " ++ s.name ++ " timeout_seconds")
      s.timeoutSeconds with
  | error e =>
    rw [hsource] at h
    cases h
  | ok source =>
    rw [hsource] at h
    have hreads := optionalPositiveSeconds_ok.mp hsource
    simp only [bind, Except.bind] at h
    cases hblocking : s.blockingIo with
    | none =>
      rw [hblocking] at h
      cases h
      refine ⟨⟨hreads, by simp [hblocking], by simp, by simp [hblocking], by simp [hblocking],
        by simp [hblocking]⟩, rfl, by simp, by simp, by simp [Protected, hblocking]⟩
    | some flag =>
      rw [hblocking] at h
      cases flag with
      | notABoolean => cases h
      | flag blocking =>
        cases hoff : s.blockingIoOffloaded with
        | notABoolean =>
          rw [hoff] at h
          cases h
        | flag offloaded =>
          rw [hoff] at h
          simp only at h
          cases htransport : optionalPositiveSeconds
              ("source " ++ s.name ++ " transport_timeout_seconds") s.transportTimeoutSeconds with
          | error e =>
            rw [htransport] at h
            cases h
          | ok transport =>
            rw [htransport] at h
            have hreads' := optionalPositiveSeconds_ok.mp htransport
            cases blocking with
            | true =>
              simp only [if_true] at h
              cases h
              refine ⟨⟨hreads, fun _ => hreads', by simp [hblocking], by simp [hblocking],
                by simp [hoff], by simp [hblocking]⟩, rfl, by simp, by simp, ?_⟩
              rw [blockingStatus_protected, Protected, hblocking, hoff]
              constructor
              · rintro ⟨rfl, t, rfl, hlt⟩
                exact ⟨rfl, rfl, t, hreads', fun timeout ht => hlt timeout (hreads.unique ht)⟩
              · rintro ⟨-, hflag, t, ht, hlt⟩
                refine ⟨by simpa using hflag, t, hreads'.unique ht, ?_⟩
                rintro timeout rfl
                exact hlt timeout hreads
            | false =>
              simp only [Bool.false_eq_true, if_false] at h
              split at h
              · cases h
              · rename_i hnone
                cases h
                have htransport' : transport = none := by simpa using hnone
                subst htransport'
                refine ⟨⟨hreads, fun _ => hreads', by simp, by simp [hblocking], by simp [hoff],
                  by simp⟩, rfl, by simp, by simp, by simp [Protected, hblocking]⟩

/-- Every declaration of the right form is inspected. -/
theorem inspect_of_declares {s : SourceObject K P} {source transport : Option ℚ}
    (h : s.Declares source transport) :
    ∃ g, s.inspectSourceTimeoutGuarantee = .ok g := by
  unfold inspectSourceTimeoutGuarantee
  rw [optionalPositiveSeconds_ok.mpr h.reads]
  simp only [bind, Except.bind]
  cases hblocking : s.blockingIo with
  | none => exact ⟨_, rfl⟩
  | some flag =>
    cases flag with
    | notABoolean => exact absurd hblocking h.blockingIo
    | flag blocking =>
      cases hoff : s.blockingIoOffloaded with
      | notABoolean => exact absurd hoff (h.offloaded (by simp [hblocking]))
      | flag offloaded =>
        simp only
        rw [optionalPositiveSeconds_ok.mpr (h.bounded (by simp [hblocking]))]
        cases blocking with
        | true => exact ⟨_, rfl⟩
        | false =>
          have hnone := h.unblocked hblocking
          subst hnone
          exact ⟨_, rfl⟩

end SourceObject
end Coalestra
