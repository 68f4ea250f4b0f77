import Coalestra.Resilience.Probes

/-! # Attempts one after another

On one identity every admitted attempt records its outcome before the next `before_call`; attempts
on other identities overlap with it in any order. The breaker is then the automaton that counts the
failures since the last success. -/

namespace Coalestra
set_option autoImplicit false
set_option maxHeartbeats 250000

/-- The failures recorded since the last success. -/
def failuresSinceSuccess (outcomes : List CircuitOutcome) : ℕ :=
  (outcomes.reverse.takeWhile fun o => decide (o ≠ .success)).count .failure

theorem failuresSinceSuccess_snoc (outcomes : List CircuitOutcome) (o : CircuitOutcome) :
    failuresSinceSuccess (outcomes ++ [o]) = match o with
      | .success => 0
      | .failure => failuresSinceSuccess outcomes + 1
      | .abandoned => failuresSinceSuccess outcomes
      | .skipped => failuresSinceSuccess outcomes := by
  cases o <;> simp [failuresSinceSuccess]

namespace Attempts

/-- Before a call on `identity` all its attempts have recorded their outcomes. -/
def Sequential (identity : CircuitIdentity) (s : Attempts) : AttemptEvent → Prop
  | .beforeCall other _ => other = identity →
      ∀ (i : ℕ) (a : Attempt), s.attempts[i]? = some a → a.identity = identity →
        a.outstanding = false
  | .record _ _ _ => True

/-- What the event records on `identity`; without an enabled policy nothing is recorded. -/
def recordedOn (policy : CircuitBreakerPolicy) (identity : CircuitIdentity) (s : Attempts) :
    AttemptEvent → List CircuitOutcome
  | .beforeCall _ _ => []
  | .record i outcome _ =>
    match s.attempts[i]? with
    | some a => if policy.enabled ∧ a.identity = identity then [outcome] else []
    | none => []

/-- The outcomes recorded on `identity` along a run. -/
def outcomesAlong (policy : CircuitBreakerPolicy) (identity : CircuitIdentity) :
    Attempts → List AttemptEvent → List CircuitOutcome
  | _, [] => []
  | s, e :: es => s.recordedOn policy identity e ++
      (step policy s e).elim [] fun t => outcomesAlong policy identity t es

/-- The event opens the circuit of `identity`: the failure that reaches the threshold, or a failed
or abandoned probe. -/
def Opens (policy : CircuitBreakerPolicy) (identity : CircuitIdentity) (s : Attempts)
    (outcomes : List CircuitOutcome) (e : AttemptEvent) : Prop :=
  ∃ i a outcome now, e = .record i outcome now ∧ s.attempts[i]? = some a ∧ a.identity = identity ∧
    ((outcome = .failure ∧ failuresSinceSuccess outcomes = policy.failureThreshold) ∨
      (a.probe = true ∧ (outcome = .failure ∨ outcome = .abandoned)))

section
variable {policy : CircuitBreakerPolicy} {identity : CircuitIdentity} {s t : Attempts}
  {e : AttemptEvent}

theorem outcomesAlong_snoc {ok : Attempts → AttemptEvent → Prop} {es : List AttemptEvent}
    (h : RunOf (step policy) ok s es t) : outcomesAlong policy identity s (es ++ [e]) =
      outcomesAlong policy identity s es ++ t.recordedOn policy identity e := by
  induction h with
  | nil s =>
    cases hstep : step policy s e <;> simp [outcomesAlong, hstep]
  | cons _ hstep _ ih => simp [outcomesAlong, hstep, ih]

/-! ## A disabled policy -/

/-- Nothing has been recorded, and every attempt was admitted by a closed circuit. -/
structure Unused (s : Attempts) : Prop where
  circuits : s.circuits = .empty
  openings : s.openings = []
  plain : ∀ (i : ℕ) (a : Attempt), s.attempts[i]? = some a → a.probe = false

theorem Unused.circuit (h : Unused s) (identity : CircuitIdentity) :
    s.circuits.circuit identity = .new := by
  rw [Circuits.circuit, h.circuits, Dict.get?_empty, Option.getD_none]

theorem unused_step (hdisabled : policy.enabled = false) (hs : Unused s)
    (h : step policy s e = some t) : Unused t := by
  cases e with
  | beforeCall other now =>
    rw [step] at h
    split at h
    · cases h
    · cases h
      have hbefore : s.circuits.beforeCall other policy now = (s.circuits, true) := by
        simp [Circuits.beforeCall, hdisabled]
      refine ⟨?_, hs.openings, fun i a hi => ?_⟩
      · change (s.circuits.beforeCall other policy now).1 = .empty
        rw [hbefore]
        exact hs.circuits
      · simp only [onBeforeCall, hbefore, if_true, hs.circuit] at hi
        rw [List.getElem?_append] at hi
        split at hi
        · exact hs.plain i a hi
        · rw [List.getElem?_singleton] at hi
          split at hi
          · cases hi
            rfl
          · cases hi
  | record i outcome now =>
    rw [step] at h
    split at h
    · cases h
    · split at h
      · rename_i a hi
        split at h
        · cases h
          have hrecord : s.circuits.record a.identity policy now outcome = s.circuits := by
            simp [Circuits.record, hdisabled]
          refine ⟨?_, ?_, fun j b hj => ?_⟩
          · change s.circuits.record a.identity policy now outcome = .empty
            rw [hrecord]
            exact hs.circuits
          · simp [onRecord, hrecord, hs.circuit, Circuit.new, hs.openings]
          · simp only [onRecord, List.getElem?_set] at hj
            split at hj
            · split at hj
              · cases hj
                exact hs.plain i a hi
              · cases hj
            · exact hs.plain j b hj
        · cases h
      · cases h

/-! ## An enabled policy -/

/-- No attempt on `identity` is under way. -/
def Idle (identity : CircuitIdentity) (s : Attempts) : Prop :=
  ∀ (i : ℕ) (a : Attempt), s.attempts[i]? = some a → a.identity = identity → a.outstanding = false

/-- The circuit counts the failures since the last success, is open or half-open once they have
reached the threshold, and has its probe out exactly while an attempt is the probe. -/
structure Sequenced (policy : CircuitBreakerPolicy) (identity : CircuitIdentity)
    (outcomes : List CircuitOutcome) (s : Attempts) : Prop where
  guarded : Guarded policy s identity
  counted : (s.circuits.circuit identity).failures = failuresSinceSuccess outcomes
  reached : (s.circuits.circuit identity).state = .closed ↔
    (s.circuits.circuit identity).failures < policy.failureThreshold
  one : ∀ (i j : ℕ) (a b : Attempt), s.attempts[i]? = some a → s.attempts[j]? = some b →
    a.identity = identity → b.identity = identity → a.outstanding = true → b.outstanding = true →
    i = j
  probe : ∀ (i : ℕ) (a : Attempt), s.attempts[i]? = some a → a.identity = identity →
    a.outstanding = true → (s.circuits.circuit identity).halfOpenProbeActive = a.probe ∧
      (s.circuits.circuit identity).state = if a.probe then .halfOpen else .closed
  free : s.Idle identity → (s.circuits.circuit identity).halfOpenProbeActive = false

theorem sequenced_new (now : ℚ) : Sequenced policy identity [] (new now) where
  guarded := guarded_new now
  counted := rfl
  reached := ⟨fun _ => policy.threshold_pos, fun _ => rfl⟩
  one := by simp [new]
  probe := by simp [new]
  free := fun _ => rfl

/-- An operation on another identity. -/
theorem Sequenced.frame {outcomes : List CircuitOutcome} (h : Sequenced policy identity outcomes s)
    (hguarded : Guarded policy t identity)
    (hcircuit : t.circuits.circuit identity = s.circuits.circuit identity)
    (hattempts : ∀ (i : ℕ) (a : Attempt), a.identity = identity →
      (t.attempts[i]? = some a ↔ s.attempts[i]? = some a)) :
    Sequenced policy identity outcomes t := by
  refine ⟨hguarded, ?_, ?_, ?_, ?_, ?_⟩
  · rw [hcircuit, h.counted]
  · rw [hcircuit, h.reached]
  · intro i j a b hi hj ha hb
    exact h.one i j a b ((hattempts i a ha).mp hi) ((hattempts j b hb).mp hj) ha hb
  · intro i a hi ha hout
    rw [hcircuit]
    exact h.probe i a ((hattempts i a ha).mp hi) ha hout
  · intro hidle
    rw [hcircuit]
    exact h.free fun i a hi ha => hidle i a ((hattempts i a ha).mpr hi) ha

/-- The outcome of an admitted attempt: the circuit opens when the failure reaches the threshold or
the attempt is a failed or abandoned probe. -/
theorem recorded_admitted {c : Circuit} {probe : Bool} (now : ℚ) (outcome : CircuitOutcome)
    (hflag : c.halfOpenProbeActive = probe)
    (hstate : c.state = if probe then .halfOpen else .closed)
    (hreached : c.state = .closed ↔ c.failures < policy.failureThreshold) :
    ((Circuits.recorded c policy now outcome).state = .closed ↔
      (Circuits.recorded c policy now outcome).failures < policy.failureThreshold) ∧
    ((Circuits.recorded c policy now outcome).state = .opened ↔
      (outcome = .failure ∧
        (Circuits.recorded c policy now outcome).failures = policy.failureThreshold) ∨
      (probe = true ∧ (outcome = .failure ∨ outcome = .abandoned))) ∧
    ((Circuits.recorded c policy now outcome).state = .opened →
      (Circuits.recorded c policy now outcome).openedAt = now) := by
  obtain ⟨state, failures, openedAt, active⟩ := c
  have hpos := policy.threshold_pos
  dsimp only at hflag hstate hreached
  subst hflag
  cases outcome with
  | success =>
    simp only [Circuits.recorded, Circuit.recordSuccess]
    simp
    omega
  | failure =>
    cases active with
    | true =>
      have hge : ¬ failures < policy.failureThreshold := by simp [← hreached, hstate]
      simp [Circuits.recorded, Circuit.recordFailure, hstate]
      omega
    | false =>
      have hlt : failures < policy.failureThreshold := by simp [← hreached, hstate]
      by_cases hlast : policy.failureThreshold ≤ failures + 1
      · simp [Circuits.recorded, Circuit.recordFailure, hstate, hlast]
        omega
      · simp [Circuits.recorded, Circuit.recordFailure, hstate, hlast]
        omega
  | abandoned =>
    cases active with
    | true =>
      have hge : ¬ failures < policy.failureThreshold := by simp [← hreached, hstate]
      simp [Circuits.recorded, Circuit.recordAbandoned, hstate]
      omega
    | false => simp [Circuits.recorded, Circuit.recordAbandoned, hstate, ← hreached]
  | skipped =>
    cases active with
    | true => simp [Circuits.recorded, Circuit.recordSkipped, hstate, ← hreached]
    | false => simp [Circuits.recorded, Circuit.recordSkipped, hstate, ← hreached]

theorem getElem?_append_one {a b : Attempt} {i : ℕ} : (s.attempts ++ [b])[i]? = some a ↔
    s.attempts[i]? = some a ∨ (i = s.attempts.length ∧ a = b) := by
  rw [List.getElem?_append]
  split
  · rename_i hlt
    constructor
    · exact .inl
    · rintro (h | ⟨rfl, _⟩)
      · exact h
      · omega
  · rename_i hge
    have hnone : s.attempts[i]? = none := List.getElem?_eq_none (by omega)
    rw [hnone, List.getElem?_singleton]
    constructor
    · intro h
      split at h
      · cases h
        exact .inr ⟨by omega, rfl⟩
      · cases h
    · rintro (h | ⟨rfl, rfl⟩)
      · cases h
      · simp

/-- A call on `identity` while none of its attempts is under way. -/
theorem Sequenced.onBeforeCall {outcomes : List CircuitOutcome} {now : ℚ}
    (henabled : policy.enabled = true) (hnow : s.now ≤ now) (hidle : s.Idle identity)
    (h : Sequenced policy identity outcomes s) :
    Sequenced policy identity outcomes (s.onBeforeCall policy identity now) := by
  have hguarded := h.guarded.onBeforeCall henabled hnow
  rcases onBeforeCall_cases henabled s identity now with ⟨ht, hrejected⟩ | ⟨ht, hadmitted⟩
  · rw [Circuit.beforeCall_rejects (fun hstate => (h.guarded.opened hstate).1) hrejected] at ht
    rw [ht] at hguarded ⊢
    exact h.frame hguarded (Circuits.circuit_set_self _ _ _) fun _ _ _ => Iff.rfl
  · have hadmits := Circuit.beforeCall_admits hadmitted
    generalize ((s.circuits.circuit identity).beforeCall policy now).1 = c' at ht hadmits
    rw [ht] at hguarded ⊢
    have hlast : ∀ (i : ℕ) (a : Attempt), (s.attempts ++ [⟨identity,
        decide (c'.state = .halfOpen), true⟩])[i]? = some a → a.identity = identity →
        a.outstanding = true → i = s.attempts.length ∧ a.probe = decide (c'.state = .halfOpen) := by
      intro i a hi ha hout
      rcases getElem?_append_one.mp hi with hold | ⟨rfl, rfl⟩
      · rw [hidle i a hold ha] at hout
        cases hout
      · exact ⟨rfl, rfl⟩
    have hcounted : c'.failures = (s.circuits.circuit identity).failures ∧
        (c'.state = .closed ↔ (s.circuits.circuit identity).state = .closed) ∧
        c'.halfOpenProbeActive = decide (c'.state = .halfOpen) ∧ c'.state ≠ .opened := by
      cases hadmits with
      | closed hclosed => simp [hclosed, h.free hidle]
      | probe hclosed _ _ => simp [hclosed]
    obtain ⟨hfailures, hclosed, hflag, hopened⟩ := hcounted
    refine ⟨hguarded, ?_, ?_, ?_, ?_, ?_⟩
    · rw [Circuits.circuit_set_self, hfailures, h.counted]
    · rw [Circuits.circuit_set_self, hfailures, hclosed, h.reached]
    · intro i j a b hi hj ha hb houta houtb
      rw [(hlast i a hi ha houta).1, (hlast j b hj hb houtb).1]
    · intro i a hi ha hout
      rw [Circuits.circuit_set_self, (hlast i a hi ha hout).2]
      refine ⟨hflag, ?_⟩
      cases hstate : c'.state with
      | closed => rfl
      | opened => exact absurd hstate hopened
      | halfOpen => rfl
    · intro hfree
      have hout := hfree s.attempts.length _ (getElem?_append_one.mpr (.inr ⟨rfl, rfl⟩)) rfl
      cases hout

/-- The outcome of the attempt on `identity` that is under way. -/
theorem Sequenced.onRecord {outcomes : List CircuitOutcome} {i : ℕ} {a : Attempt}
    {outcome : CircuitOutcome} {now : ℚ} (henabled : policy.enabled = true) (hnow : s.now ≤ now)
    (hi : s.attempts[i]? = some a) (hout : a.outstanding = true)
    (h : Sequenced policy a.identity outcomes s) :
    Sequenced policy a.identity (outcomes ++ [outcome]) (s.onRecord policy i a outcome now) := by
  obtain ⟨hflag, hstate⟩ := h.probe i a hi rfl hout
  have hok : Undisturbed policy s (.record i outcome now) := by
    intro b hb
    rw [hi, Option.some.injEq] at hb
    subst hb
    refine ⟨fun j ⟨b, hj, hb, _, hbout⟩ => h.one j i b a hj hi hb rfl hbout hout, ?_⟩
    intro _ hopened
    rw [hopened] at hstate
    split at hstate <;> cases hstate
  have hguarded := h.guarded.onRecord henabled hnow hi hok
  have hself : (s.onRecord policy i a outcome now).circuits.circuit a.identity =
      Circuits.recorded (s.circuits.circuit a.identity) policy now outcome :=
    Circuits.record_self henabled outcome
  have hcounted := h.counted
  have hreached := h.reached
  have hidle : (s.onRecord policy i a outcome now).Idle a.identity := by
    intro j b hj hb
    by_contra hbout
    rw [Bool.not_eq_false] at hbout
    simp only [Attempts.onRecord, List.getElem?_set] at hj
    split at hj
    · split at hj
      · cases hj
        cases hbout
      · cases hj
    · rename_i hne
      exact hne (h.one i j a b hi hj rfl hb hout hbout)
  refine ⟨hguarded, ?_, ?_, ?_, ?_, ?_⟩
  · rw [hself, failuresSinceSuccess_snoc, ← hcounted]
    cases outcome with
    | success => rfl
    | failure => simp only [Circuits.recorded, Circuit.recordFailure]; split <;> rfl
    | abandoned => simp only [Circuits.recorded, Circuit.recordAbandoned]; split <;> rfl
    | skipped => rfl
  · rw [hself]
    exact (recorded_admitted _ _ hflag hstate hreached).1
  · intro j k b d hj hk hb hd hbout
    rw [hidle j b hj hb] at hbout
    cases hbout
  · intro j b hj hb hbout
    rw [hidle j b hj hb] at hbout
    cases hbout
  · intro _
    rw [hself]
    exact Circuits.recorded_releases _ _ _ _

theorem Sequenced.step {outcomes : List CircuitOutcome} (henabled : policy.enabled = true)
    (hok : Sequential identity s e) (hs : Sequenced policy identity outcomes s)
    (h : step policy s e = some t) :
    Sequenced policy identity (outcomes ++ s.recordedOn policy identity e) t := by
  cases e with
  | beforeCall other now =>
    rw [Attempts.step] at h
    split at h
    · cases h
    · rename_i hnow
      cases h
      rw [recordedOn, List.append_nil]
      by_cases hother : other = identity
      · rw [hother]
        exact hs.onBeforeCall henabled (not_lt.mp hnow) (hok hother)
      · have hne : identity ≠ other := fun h => hother h.symm
        have hguarded := hs.guarded.onBeforeCall_ne henabled (not_lt.mp hnow) hne
        rcases onBeforeCall_cases henabled s other now with ⟨ht, _⟩ | ⟨ht, _⟩
        · rw [ht] at hguarded ⊢
          exact hs.frame hguarded (Circuits.circuit_set_ne _ _ hne) fun _ _ _ => Iff.rfl
        · rw [ht] at hguarded ⊢
          refine hs.frame hguarded (Circuits.circuit_set_ne _ _ hne) fun i a ha => ?_
          refine getElem?_append_one.trans ⟨?_, .inl⟩
          rintro (hi | ⟨_, rfl⟩)
          · exact hi
          · exact absurd ha hother
  | record i outcome now =>
    rw [Attempts.step] at h
    split at h
    · cases h
    · rename_i hnow
      split at h
      · rename_i a hi
        split at h
        · rename_i hout
          cases h
          simp only [recordedOn, hi, henabled, true_and]
          by_cases hother : a.identity = identity
          · rw [if_pos hother, ← hother]
            exact Sequenced.onRecord henabled (not_lt.mp hnow) hi hout (hother ▸ hs)
          · rw [if_neg hother, List.append_nil]
            have hne : identity ≠ a.identity := fun h => hother h.symm
            refine hs.frame (hs.guarded.onRecord_ne (not_lt.mp hnow) hi hne)
              (Circuits.record_ne hne) fun j b hb => ?_
            simp only [Attempts.onRecord, List.getElem?_set]
            split
            · rename_i hij
              subst hij
              split
              · constructor
                · rintro h
                  cases h
                  exact absurd hb hother
                · intro h
                  rw [hi] at h
                  cases h
                  exact absurd hb hother
              · rename_i hlen
                exact absurd (List.getElem?_eq_some_iff.mp hi).1 hlen
            · exact Iff.rfl
        · cases h
      · cases h

theorem sequenced_run {start : ℚ} {es : List AttemptEvent} (henabled : policy.enabled = true)
    (h : RunOf (Attempts.step policy) (Sequential identity) (new start) es s) :
    Sequenced policy identity (outcomesAlong policy identity (new start) es) s := by
  refine h.history (P := fun es s =>
    Sequenced policy identity (outcomesAlong policy identity (new start) es) s)
    (sequenced_new start) ?_
  intro es s e t hrun hok hstep hs
  rw [outcomesAlong_snoc hrun]
  exact hs.step henabled hok hstep

/-! ## The reference automaton -/

/-- An event records the outcome of an attempt on `identity`, or does not open its circuit. -/
theorem step_split (identity : CircuitIdentity) (henabled : policy.enabled = true)
    (h : step policy s e = some t) :
    (∃ i a outcome now, e = .record i outcome now ∧ s.attempts[i]? = some a ∧
      a.identity = identity ∧ a.outstanding = true ∧ t.now = now ∧
      t.circuits.circuit identity =
        Circuits.recorded (s.circuits.circuit identity) policy now outcome ∧
      ∀ τ, (identity, τ) ∈ t.openings ↔ (identity, τ) ∈ s.openings ∨
        ((t.circuits.circuit identity).state = .opened ∧
          τ = (t.circuits.circuit identity).openedAt)) ∨
    ((∀ i a outcome now, e = .record i outcome now → s.attempts[i]? = some a →
        a.identity ≠ identity) ∧
      ((t.circuits.circuit identity).state = .opened →
        (s.circuits.circuit identity).state = .opened) ∧
      ∀ τ, (identity, τ) ∈ t.openings ↔ (identity, τ) ∈ s.openings) := by
  cases e with
  | beforeCall other now =>
    right
    rw [Attempts.step] at h
    split at h
    · cases h
    · cases h
      refine ⟨by simp, fun hopened => ?_, fun _ => Iff.rfl⟩
      have hcircuit : (s.onBeforeCall policy other now).circuits =
          (s.circuits.beforeCall other policy now).1 := rfl
      rw [hcircuit] at hopened
      by_cases hother : identity = other
      · subst hother
        rw [Circuits.beforeCall_enabled henabled, Circuits.circuit_set_self] at hopened
        generalize s.circuits.circuit identity = c at hopened ⊢
        obtain ⟨state, failures, openedAt, active⟩ := c
        cases state with
        | closed => cases hopened
        | opened => rfl
        | halfOpen => cases active <;> cases hopened
      · rwa [Circuits.beforeCall_ne hother] at hopened
  | record i outcome now =>
    rw [Attempts.step] at h
    split at h
    · cases h
    · split at h
      · rename_i a hi
        split at h
        · rename_i hout
          cases h
          by_cases hother : a.identity = identity
          · left
            subst hother
            refine ⟨i, a, outcome, now, rfl, hi, rfl, hout, rfl, Circuits.record_self henabled _,
              fun τ => ?_⟩
            simp only [Attempts.onRecord]
            split
            · rename_i hopened
              simp [hopened]
            · rename_i hopened
              simp [hopened]
          · right
            refine ⟨?_, ?_, fun τ => ?_⟩
            · rintro j b _ _ heq hj rfl
              cases heq
              rw [hi] at hj
              cases hj
              exact hother rfl
            · intro hopened
              rwa [show (s.onRecord policy i a outcome now).circuits.circuit identity = _ from
                Circuits.record_ne fun h => hother h.symm] at hopened
            · simp only [Attempts.onRecord]
              split
              · rw [List.mem_append, List.mem_singleton, Prod.mk.injEq]
                exact ⟨fun hmem => hmem.resolve_right fun heq => hother heq.1.symm, .inl⟩
              · exact Iff.rfl
        · cases h
      · cases h

theorem Sequenced.rejects {outcomes : List CircuitOutcome} {now : ℚ}
    (henabled : policy.enabled = true) (hnow : s.now ≤ now) (hidle : s.Idle identity)
    (h : Sequenced policy identity outcomes s) :
    (s.circuits.beforeCall identity policy now).2 = false ↔
      ∃ τ, (identity, τ) ∈ s.openings ∧ now - τ < policy.recoveryTimeoutSeconds := by
  rw [Circuits.beforeCall_enabled henabled]
  have hfree := h.free hidle
  have hopened := h.guarded.opened
  have helapsed := h.guarded.elapsed
  generalize s.circuits.circuit identity = c at hfree hopened helapsed ⊢
  obtain ⟨state, failures, openedAt, active⟩ := c
  dsimp only at hfree hopened helapsed ⊢
  subst hfree
  -- outside the open state every recovery window has passed
  have hpassed : state ≠ .opened → ¬ ∃ τ, (identity, τ) ∈ s.openings ∧
      now - τ < policy.recoveryTimeoutSeconds := by
    rintro hstate ⟨τ, hτ, hlt⟩
    have hle := helapsed hstate τ hτ
    linarith
  cases state with
  | closed => simpa [Circuit.beforeCall] using hpassed (by simp)
  | halfOpen => simpa [Circuit.beforeCall, Circuit.admitProbe] using hpassed (by simp)
  | opened =>
    obtain ⟨_, hmem, hlast⟩ := hopened rfl
    have hlatest : (∃ τ, (identity, τ) ∈ s.openings ∧ now - τ < policy.recoveryTimeoutSeconds) ↔
        now - openedAt < policy.recoveryTimeoutSeconds := by
      refine ⟨?_, fun hlt => ⟨openedAt, hmem, hlt⟩⟩
      rintro ⟨τ, hτ, hlt⟩
      have hle := hlast τ hτ
      linarith
    rw [hlatest]
    by_cases hwindow : now - openedAt < policy.recoveryTimeoutSeconds
    · simp [Circuit.beforeCall, hwindow]
    · simp [Circuit.beforeCall, Circuit.admitProbe, hwindow]

/-- What the automaton promises in the state that a run has reached, and of the next event. -/
structure Reference (policy : CircuitBreakerPolicy) (identity : CircuitIdentity) (start : ℚ)
    (es : List AttemptEvent) (s : Attempts) : Prop where
  closed : (s.circuits.circuit identity).state = .closed →
    (s.circuits.circuit identity).failures < policy.failureThreshold
  probing : (s.circuits.circuit identity).halfOpenProbeActive = true →
    (s.circuits.circuit identity).state = .halfOpen
  rejects : ∀ now, s.now ≤ now → s.Idle identity →
    ((s.circuits.beforeCall identity policy now).2 = false ↔
      ∃ τ, (identity, τ) ∈ s.openings ∧ now - τ < policy.recoveryTimeoutSeconds)
  opens : ∀ e t, Sequential identity s e → step policy s e = some t →
    (((s.circuits.circuit identity).state ≠ .opened ∧
        (t.circuits.circuit identity).state = .opened) ↔
      Opens policy identity s (outcomesAlong policy identity (new start) (es ++ [e])) e) ∧
    ∀ τ, (identity, τ) ∈ t.openings ↔ (identity, τ) ∈ s.openings ∨
      (Opens policy identity s (outcomesAlong policy identity (new start) (es ++ [e])) e ∧
        τ = t.now)
  probed : ∀ i a outcome now t, s.attempts[i]? = some a → a.identity = identity →
    a.probe = true → step policy s (.record i outcome now) = some t →
    (outcome = .success → (t.circuits.circuit identity).state = .closed ∧
      (t.circuits.circuit identity).failures = 0) ∧
    (outcome = .skipped → (t.circuits.circuit identity).state = .halfOpen ∧
      (t.circuits.circuit identity).halfOpenProbeActive = false)

theorem reference_enabled {start : ℚ} {es : List AttemptEvent} (henabled : policy.enabled = true)
    (hrun : RunOf (Attempts.step policy) (Sequential identity) (new start) es s) :
    Reference policy identity start es s := by
  have hs := sequenced_run henabled hrun
  refine ⟨hs.reached.mp, ?_, fun now hnow hidle => hs.rejects henabled hnow hidle, ?_, ?_⟩
  · intro hflag
    by_contra hstate
    have hidle : s.Idle identity := by
      intro i a hi ha
      by_contra hout
      obtain ⟨hprobe, hhalf⟩ := hs.probe i a hi ha (by simpa using hout)
      rw [← hprobe, hflag, if_pos rfl] at hhalf
      exact hstate hhalf
    rw [hs.free hidle] at hflag
    cases hflag
  · intro e t hok hstep
    have ht := hs.step henabled hok hstep
    rw [outcomesAlong_snoc hrun]
    rcases step_split identity henabled hstep with
      ⟨i, a, outcome, now, rfl, hi, rfl, hout, hnow, hself, hopenings⟩ | ⟨hnone, hsame, hopenings⟩
    · obtain ⟨hflag, hstate⟩ := hs.probe i a hi rfl hout
      obtain ⟨_, hopened, hat⟩ := recorded_admitted now outcome hflag hstate
        hs.reached
      have hbefore : (s.circuits.circuit a.identity).state ≠ .opened := by
        rw [hstate]
        cases a.probe <;> simp
      have hiff : (t.circuits.circuit a.identity).state = .opened ↔
          Opens policy a.identity s (outcomesAlong policy a.identity (new start) es ++
            s.recordedOn policy a.identity (.record i outcome now)) (.record i outcome now) := by
        rw [hself, hopened, ← hself, ht.counted]
        constructor
        · exact fun h => ⟨i, a, outcome, now, rfl, hi, rfl, h⟩
        · rintro ⟨j, b, _, _, heq, hj, _, h⟩
          cases heq
          rw [hi] at hj
          cases hj
          exact h
      refine ⟨⟨fun h => hiff.mp h.2, fun h => ⟨hbefore, hiff.mpr h⟩⟩, fun τ => ?_⟩
      rw [hopenings, ← hiff, hnow]
      constructor
      · rintro (hτ | ⟨ho, rfl⟩)
        · exact .inl hτ
        · exact .inr ⟨ho, by rw [hself] at ho ⊢; exact hat ho⟩
      · rintro (hτ | ⟨ho, rfl⟩)
        · exact .inl hτ
        · exact .inr ⟨ho, by rw [hself] at ho ⊢; exact (hat ho).symm⟩
    · have hnot : ¬ Opens policy identity s (outcomesAlong policy identity (new start) es ++
          s.recordedOn policy identity e) e := by
        rintro ⟨i, a, outcome, now, heq, hi, ha, _⟩
        exact hnone i a outcome now heq hi ha
      refine ⟨⟨fun h => absurd (hsame h.2) h.1, fun h => absurd h hnot⟩, fun τ => ?_⟩
      rw [hopenings]
      exact ⟨.inl, fun h => h.resolve_right fun hτ => hnot hτ.1⟩
  · rintro i a outcome now t hi rfl hprobe hstep
    rcases step_split a.identity henabled hstep with
      ⟨j, b, _, _, heq, hj, _, hout, _, hself, _⟩ | ⟨hnone, _⟩
    · cases heq
      rw [hi] at hj
      cases hj
      obtain ⟨_, hhalf⟩ := hs.probe i a hi rfl hout
      rw [hprobe, if_pos rfl] at hhalf
      rw [hself]
      refine ⟨?_, ?_⟩
      · rintro rfl
        exact ⟨rfl, rfl⟩
      · rintro rfl
        exact ⟨hhalf, rfl⟩
    · exact absurd rfl (hnone i a outcome now rfl hi)

theorem reference_disabled {start : ℚ} {es : List AttemptEvent} (hdisabled : policy.enabled = false)
    (hrun : RunOf (Attempts.step policy) (Sequential identity) (new start) es s) :
    Reference policy identity start es s := by
  have hs : Unused s := hrun.invariant Unused
    (fun _ _ _ _ hs h => unused_step hdisabled hs h) ⟨rfl, rfl, by simp [new]⟩
  have hnone : ∀ es s, outcomesAlong policy identity s es = [] := by
    intro es
    induction es with
    | nil => exact fun _ => rfl
    | cons e es ih =>
      intro s
      have hrecorded : s.recordedOn policy identity e = [] := by
        cases e with
        | beforeCall => rfl
        | record i outcome now =>
          rw [recordedOn]
          split <;> simp [hdisabled]
      rw [outcomesAlong, hrecorded]
      cases step policy s e with
      | none => rfl
      | some t => exact ih t
  have hpos := policy.threshold_pos
  refine ⟨fun _ => ?_, ?_, ?_, ?_, ?_⟩
  · rw [hs.circuit]
    exact hpos
  · rw [hs.circuit]
    simp [Circuit.new]
  · simp [Circuits.beforeCall, hdisabled, hs.openings]
  · intro e t _ hstep
    have ht := unused_step hdisabled hs hstep
    have hnot : ¬ Opens policy identity s
        (outcomesAlong policy identity (new start) (es ++ [e])) e := by
      rintro ⟨i, a, outcome, now, rfl, hi, _, ⟨_, hcount⟩ | ⟨hprobe, _⟩⟩
      · rw [hnone] at hcount
        rw [← hcount] at hpos
        exact absurd hpos (by decide)
      · rw [hs.plain i a hi] at hprobe
        cases hprobe
    simp [hs.circuit, ht.circuit, hs.openings, ht.openings, hnot, Circuit.new]
  · intro i a outcome now t hi _ hprobe
    rw [hs.plain i a hi] at hprobe
    cases hprobe

/-- Used sequentially on an identity, the breaker is the automaton that counts failures: it rejects
a call exactly in the recovery window of an opening, opens exactly when the failures since the last
success reach the threshold or its probe fails or is abandoned, closes with a success of the probe
and stays half-open with a skipped one. -/
theorem sequential_reference (policy : CircuitBreakerPolicy) (identity : CircuitIdentity)
    {start : ℚ} {es : List AttemptEvent} {s : Attempts}
    (hrun : RunOf (Attempts.step policy) (Sequential identity) (new start) es s) :
    Reference policy identity start es s := by
  cases henabled : policy.enabled with
  | true => exact reference_enabled henabled hrun
  | false => exact reference_disabled henabled hrun

end

/-! ## One recovery -/

/-- Two failures open the circuit for ten seconds. -/
def twoFailures : CircuitBreakerPolicy := ⟨.ofSource, 2, 10, true, Nat.two_pos, ten_seconds_nonneg⟩

/-- The second failure opens the circuit, one call is rejected, and the probe is skipped. -/
def skippedProbe : List AttemptEvent :=
  [.beforeCall onlySource 0, .record 0 .failure 1, .beforeCall onlySource 1,
    .record 1 .failure 2, .beforeCall onlySource 5, .beforeCall onlySource 12,
    .record 2 .skipped 13]

def sequentialCheck (s : Attempts) : AttemptEvent → Bool
  | .beforeCall _ _ => s.attempts.all fun a => !a.outstanding
  | .record _ _ _ => true

theorem sequential_of_check {identity : CircuitIdentity} {s : Attempts} {e : AttemptEvent}
    (h : sequentialCheck s e = true) : Sequential identity s e := by
  cases e with
  | beforeCall other now =>
    intro _ i a hi _
    simpa using List.all_eq_true.mp h a (List.mem_of_getElem? hi)
  | record => trivial

theorem sequential_reference_skipped : ∃ s : Attempts,
    s.openings = [(onlySource, 2)] ∧
      (s.circuits.circuit onlySource).state = .halfOpen ∧
      (s.circuits.circuit onlySource).failures = 2 ∧
      Reference twoFailures onlySource 0 skippedProbe s := by
  have hend : (execOf (step twoFailures) sequentialCheck (new 0) skippedProbe).map (fun s =>
      decide (s.openings = [(onlySource, 2)] ∧
        (s.circuits.circuit onlySource).state = .halfOpen ∧
        (s.circuits.circuit onlySource).failures = 2)) = some true := by decide +kernel
  obtain ⟨s, hs, hfacts⟩ := Option.map_eq_some_iff.mp hend
  obtain ⟨hopenings, hstate, hfailures⟩ := of_decide_eq_true hfacts
  exact ⟨s, hopenings, hstate, hfailures, sequential_reference twoFailures onlySource
    ((execOf_run hs).mono fun _ _ h => sequential_of_check h)⟩

end Attempts
end Coalestra
