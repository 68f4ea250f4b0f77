import Coalestra.Resilience.CircuitBreaker

/-! # Overlapping attempts

Any number of attempts share a breaker. Each is a `before_call` that was admitted, followed by one of
its own `record_*`; attempts overlap in any order, and the clock never goes back. -/

namespace Coalestra
set_option autoImplicit false
set_option maxHeartbeats 250000

/-- An admitted attempt; `probe` when the circuit was half-open at its admission. -/
structure Attempt where
  identity : CircuitIdentity
  probe : Bool
  outstanding : Bool

/-- The breaker, the attempts and, for the statements, every opening with its time. -/
structure Attempts where
  circuits : Circuits
  now : ℚ
  attempts : List Attempt
  openings : List (CircuitIdentity × ℚ)

inductive AttemptEvent
  | beforeCall (identity : CircuitIdentity) (now : ℚ)
  | record (i : ℕ) (outcome : CircuitOutcome) (now : ℚ)

namespace Attempts

def new (now : ℚ) : Attempts := ⟨.empty, now, [], []⟩

def onBeforeCall (policy : CircuitBreakerPolicy) (s : Attempts) (identity : CircuitIdentity)
    (now : ℚ) : Attempts :=
  let (circuits, admitted) := s.circuits.beforeCall identity policy now
  { s with
    circuits := circuits
    now := now
    attempts :=
      if admitted then
        s.attempts ++ [⟨identity, decide ((circuits.circuit identity).state = .halfOpen), true⟩]
      else s.attempts }

def onRecord (policy : CircuitBreakerPolicy) (s : Attempts) (i : ℕ) (a : Attempt)
    (outcome : CircuitOutcome) (now : ℚ) : Attempts :=
  let circuits := s.circuits.record a.identity policy now outcome
  let c := circuits.circuit a.identity
  { circuits := circuits
    now := now
    attempts := s.attempts.set i { a with outstanding := false }
    openings :=
      if c.state = .opened then s.openings ++ [(a.identity, c.openedAt)] else s.openings }

def step (policy : CircuitBreakerPolicy) (s : Attempts) : AttemptEvent → Option Attempts
  | .beforeCall identity now => if now < s.now then none else some (s.onBeforeCall policy identity now)
  | .record i outcome now =>
    if now < s.now then none
    else
      match s.attempts[i]? with
      | some a => if a.outstanding then some (s.onRecord policy i a outcome now) else none
      | none => none

/-! ## Promises -/

/-- The attempt `i` is an outstanding probe of `identity`. -/
def Probing (s : Attempts) (identity : CircuitIdentity) (i : ℕ) : Prop :=
  ∃ a, s.attempts[i]? = some a ∧ a.identity = identity ∧ a.probe = true ∧ a.outstanding = true

/-- At most one attempt admitted while its circuit was half-open is outstanding. -/
def OneProbe (s : Attempts) : Prop :=
  ∀ identity i j, s.Probing identity i → s.Probing identity j → i = j

/-- No attempt is admitted before the recovery window of an earlier opening has passed. -/
def WindowsKept (policy : CircuitBreakerPolicy) (s : Attempts) : Prop :=
  ∀ identity now, s.now ≤ now → (s.circuits.beforeCall identity policy now).2 = true →
    ∀ t, (identity, t) ∈ s.openings → t + policy.recoveryTimeoutSeconds ≤ now

/-- No attempt reports while another one is the outstanding probe, and none reports a success to an
open circuit in its recovery window. -/
def Undisturbed (policy : CircuitBreakerPolicy) (s : Attempts) : AttemptEvent → Prop
  | .beforeCall _ _ => True
  | .record i outcome now => ∀ a, s.attempts[i]? = some a →
      (∀ j, s.Probing a.identity j → j = i) ∧
      (outcome = .success → (s.circuits.circuit a.identity).state = .opened →
        (s.circuits.circuit a.identity).openedAt + policy.recoveryTimeoutSeconds ≤ now)

/-- Circuit, openings and outstanding probes of one identity fit together. -/
structure Guarded (policy : CircuitBreakerPolicy) (s : Attempts) (identity : CircuitIdentity) :
    Prop where
  past : ∀ t, (identity, t) ∈ s.openings → t ≤ s.now
  opened : (s.circuits.circuit identity).state = .opened →
    (s.circuits.circuit identity).halfOpenProbeActive = false ∧
    (identity, (s.circuits.circuit identity).openedAt) ∈ s.openings ∧
    ∀ t, (identity, t) ∈ s.openings → t ≤ (s.circuits.circuit identity).openedAt
  elapsed : (s.circuits.circuit identity).state ≠ .opened → ∀ t, (identity, t) ∈ s.openings →
    t + policy.recoveryTimeoutSeconds ≤ s.now
  probing : ∀ i, s.Probing identity i → (s.circuits.circuit identity).state = .halfOpen ∧
    (s.circuits.circuit identity).halfOpenProbeActive = true
  one : ∀ i j, s.Probing identity i → s.Probing identity j → i = j

section
variable {policy : CircuitBreakerPolicy} {s t : Attempts} {identity : CircuitIdentity}

theorem guarded_new (now : ℚ) : Guarded policy (new now) identity where
  past := by simp [new]
  opened := by simp [new, Circuits.circuit, Circuit.new]
  elapsed := by simp [new]
  probing := by simp [Probing, new]
  one := by simp [Probing, new]

/-- What an operation on another identity leaves alone. -/
theorem Guarded.frame (h : Guarded policy s identity) (hnow : s.now ≤ t.now)
    (hcircuit : t.circuits.circuit identity = s.circuits.circuit identity)
    (hopenings : ∀ τ, (identity, τ) ∈ t.openings ↔ (identity, τ) ∈ s.openings)
    (hprobing : ∀ i, t.Probing identity i ↔ s.Probing identity i) : Guarded policy t identity where
  past := fun τ hτ => (h.past τ ((hopenings τ).mp hτ)).trans hnow
  opened := by
    intro hstate
    rw [hcircuit] at hstate ⊢
    obtain ⟨hflag, hmem, hlast⟩ := h.opened hstate
    exact ⟨hflag, (hopenings _).mpr hmem, fun τ hτ => hlast τ ((hopenings τ).mp hτ)⟩
  elapsed := by
    intro hstate τ hτ
    rw [hcircuit] at hstate
    exact (h.elapsed hstate τ ((hopenings τ).mp hτ)).trans hnow
  probing := by
    intro i hi
    rw [hcircuit]
    exact h.probing i ((hprobing i).mp hi)
  one := fun i j hi hj => h.one i j ((hprobing i).mp hi) ((hprobing j).mp hj)

/-! ## Admissions -/

theorem probing_append {a : Attempt} {i : ℕ} :
    Probing { s with attempts := s.attempts ++ [a] } identity i ↔
      s.Probing identity i ∨
        (i = s.attempts.length ∧ a.identity = identity ∧ a.probe = true ∧ a.outstanding = true) := by
  simp only [Probing]
  constructor
  · rintro ⟨b, hb, hrest⟩
    rcases Nat.lt_trichotomy i s.attempts.length with hlt | heq | hgt
    · rw [List.getElem?_append_left hlt] at hb
      exact .inl ⟨b, hb, hrest⟩
    · rw [heq, List.getElem?_append_right le_rfl, Nat.sub_self, List.getElem?_cons_zero,
        Option.some.injEq] at hb
      rw [hb]
      exact .inr ⟨heq, hrest⟩
    · rw [List.getElem?_eq_none (by rw [List.length_append, List.length_singleton]; omega)] at hb
      cases hb
  · rintro (⟨b, hb, hrest⟩ | ⟨rfl, hrest⟩)
    · have hlt := (List.getElem?_eq_some_iff.mp hb).1
      exact ⟨b, by rw [List.getElem?_append_left hlt, hb], hrest⟩
    · exact ⟨a, by simp, hrest⟩

theorem probing_congr {i : ℕ} (h : t.attempts = s.attempts) :
    t.Probing identity i ↔ s.Probing identity i := by
  rw [Probing, Probing, h]

/-- The state after a rejection and the two states after an admission. -/
theorem onBeforeCall_cases (henabled : policy.enabled = true) (s : Attempts)
    (identity : CircuitIdentity) (now : ℚ) :
    let c := s.circuits.circuit identity
    let c' := (c.beforeCall policy now).1
    (s.onBeforeCall policy identity now = ⟨s.circuits.set identity c', now, s.attempts, s.openings⟩ ∧
      (c.beforeCall policy now).2 = false) ∨
    (s.onBeforeCall policy identity now = ⟨s.circuits.set identity c', now,
        s.attempts ++ [⟨identity, decide (c'.state = .halfOpen), true⟩], s.openings⟩ ∧
      (c.beforeCall policy now).2 = true) := by
  intro c c'
  cases hadmitted : (c.beforeCall policy now).2 with
  | false =>
    left
    refine ⟨?_, rfl⟩
    simp only [onBeforeCall, Circuits.beforeCall_enabled henabled]
    rw [show ((s.circuits.circuit identity).beforeCall policy now).2 = false from hadmitted]
    rfl
  | true =>
    right
    refine ⟨?_, rfl⟩
    simp only [onBeforeCall, Circuits.beforeCall_enabled henabled]
    rw [show ((s.circuits.circuit identity).beforeCall policy now).2 = true from hadmitted]
    simp only [Circuits.circuit_set_self, if_true]
    rfl

theorem Guarded.onBeforeCall (henabled : policy.enabled = true) {now : ℚ} (hnow : s.now ≤ now)
    (h : Guarded policy s identity) : Guarded policy (s.onBeforeCall policy identity now) identity := by
  rcases onBeforeCall_cases henabled s identity now with ⟨ht, hadmitted⟩ | ⟨ht, hadmitted⟩
  · rw [Circuit.beforeCall_rejects (fun hstate => (h.opened hstate).1) hadmitted] at ht
    rw [ht]
    exact h.frame hnow (Circuits.circuit_set_self _ _ _) (fun _ => Iff.rfl)
      (fun _ => probing_congr rfl)
  · have hadmits := Circuit.beforeCall_admits hadmitted
    generalize ((s.circuits.circuit identity).beforeCall policy now).1 = c' at ht hadmits
    rw [ht]
    cases hadmits with
    | closed hclosed =>
      refine h.frame hnow (Circuits.circuit_set_self _ _ _) (fun _ => Iff.rfl) fun i => ?_
      refine (probing_append (s := s)).trans ⟨?_, .inl⟩
      rintro (hi | ⟨_, _, hprobe, _⟩)
      · exact hi
      · rw [hclosed] at hprobe
        cases hprobe
    | probe hclosed hflag hwindow =>
      have hnone : ∀ i, ¬ s.Probing identity i := by
        intro i hi
        rw [(h.probing i hi).2] at hflag
        cases hflag
      have hlast : ∀ i, (Probing ⟨s.circuits.set identity { s.circuits.circuit identity with
          state := .halfOpen, halfOpenProbeActive := true }, now, s.attempts ++ [⟨identity,
            decide (CircuitState.halfOpen = .halfOpen), true⟩], s.openings⟩ identity i) →
          i = s.attempts.length := by
        intro i hi
        rcases (probing_append (s := s)).mp hi with hi | hi
        · exact absurd hi (hnone i)
        · exact hi.1
      refine ⟨fun τ hτ => (h.past τ hτ).trans hnow, ?_, ?_, ?_, ?_⟩
      · intro hstate
        rw [Circuits.circuit_set_self] at hstate
        cases hstate
      · intro _ τ hτ
        by_cases hopened : (s.circuits.circuit identity).state = .opened
        · have hle := (h.opened hopened).2.2 τ hτ
          have hpassed := hwindow hopened
          change τ + policy.recoveryTimeoutSeconds ≤ now
          linarith
        · exact (h.elapsed hopened τ hτ).trans hnow
      · intro i _
        rw [Circuits.circuit_set_self]
        exact ⟨rfl, rfl⟩
      · intro i j hi hj
        rw [hlast i hi, hlast j hj]

theorem Guarded.onBeforeCall_ne (henabled : policy.enabled = true) {now : ℚ} (hnow : s.now ≤ now)
    {other : CircuitIdentity} (hne : identity ≠ other) (h : Guarded policy s identity) :
    Guarded policy (s.onBeforeCall policy other now) identity := by
  rcases onBeforeCall_cases henabled s other now with ⟨ht, _⟩ | ⟨ht, _⟩
  · rw [ht]
    exact h.frame hnow (Circuits.circuit_set_ne _ _ hne) (fun _ => Iff.rfl)
      (fun _ => probing_congr rfl)
  · rw [ht]
    refine h.frame hnow (Circuits.circuit_set_ne _ _ hne) (fun _ => Iff.rfl) fun i => ?_
    refine (probing_append (s := s)).trans ⟨?_, .inl⟩
    rintro (hi | ⟨_, hidentity, _, _⟩)
    · exact hi
    · exact absurd hidentity.symm hne

/-! ## Outcomes -/

theorem probing_set {a : Attempt} {i j : ℕ} :
    Probing { s with attempts := s.attempts.set i { a with outstanding := false } } identity j ↔
      j ≠ i ∧ s.Probing identity j := by
  simp only [Probing, List.getElem?_set]
  constructor
  · rintro ⟨b, hb, hrest⟩
    split at hb
    · split at hb
      · rw [← Option.some.inj hb] at hrest
        cases hrest.2.2
      · cases hb
    · rename_i hne
      exact ⟨fun hji => hne hji.symm, b, hb, hrest⟩
  · rintro ⟨hne, b, hb, hrest⟩
    exact ⟨b, by rw [if_neg fun hij => hne hij.symm]; exact hb, hrest⟩

/-- An outcome that nobody else's probe waits for. -/
theorem Guarded.onRecord (henabled : policy.enabled = true) {i : ℕ} {a : Attempt}
    {outcome : CircuitOutcome} {now : ℚ} (hnow : s.now ≤ now) (hi : s.attempts[i]? = some a)
    (hok : Undisturbed policy s (.record i outcome now)) (h : Guarded policy s a.identity) :
    Guarded policy (s.onRecord policy i a outcome now) a.identity := by
  obtain ⟨hothers, hsuccess⟩ := hok a hi
  have hself : (s.circuits.record a.identity policy now outcome).circuit a.identity =
      Circuits.recorded (s.circuits.circuit a.identity) policy now outcome :=
    Circuits.record_self henabled outcome
  have hreleased := Circuits.recorded_releases (s.circuits.circuit a.identity) policy now outcome
  have hstates := Circuits.recorded_state (s.circuits.circuit a.identity) policy now outcome
  generalize Circuits.recorded (s.circuits.circuit a.identity) policy now outcome = c'
    at hself hreleased hstates
  have hnone : ∀ j, ¬ (s.onRecord policy i a outcome now).Probing a.identity j := by
    intro j hj
    obtain ⟨hne, hj⟩ := (probing_set (s := s)).mp hj
    exact hne (hothers j hj)
  have hmem : ∀ τ, (a.identity, τ) ∈ (s.onRecord policy i a outcome now).openings ↔
      (a.identity, τ) ∈ s.openings ∨ (c'.state = .opened ∧ τ = c'.openedAt) := by
    intro τ
    simp only [Attempts.onRecord, hself]
    split
    · rename_i hopened
      simp [hopened]
    · rename_i hopened
      simp [hopened]
  -- the openings are those of before, and one more when the circuit is open now
  have hlater : c'.state = .opened → c'.openedAt ≤ now ∧
      ∀ τ, (a.identity, τ) ∈ s.openings → τ ≤ c'.openedAt := by
    intro hopened
    rcases hstates with ⟨_, hclosed⟩ | ⟨_, hat⟩ | ⟨hsame, hat⟩
    · rw [hclosed] at hopened
      cases hopened
    · rw [hat]
      exact ⟨le_rfl, fun τ hτ => (h.past τ hτ).trans hnow⟩
    · rw [hsame] at hopened
      rw [hat]
      obtain ⟨_, hlogged, hlast⟩ := h.opened hopened
      exact ⟨(h.past _ hlogged).trans hnow, hlast⟩
  refine ⟨fun τ hτ => ?_, fun hopened => ?_, fun hopened τ hτ => ?_,
    fun j hj => absurd hj (hnone j), fun j _ hj => absurd hj (hnone j)⟩
  · rcases (hmem τ).mp hτ with hold | ⟨hopened, rfl⟩
    · exact (h.past τ hold).trans hnow
    · exact (hlater hopened).1
  · have hopened' : c'.state = .opened := by rwa [← hself]
    change ((s.circuits.record a.identity policy now outcome).circuit a.identity).halfOpenProbeActive
      = false ∧ _
    rw [hself]
    refine ⟨hreleased, (hmem _).mpr ?_, fun τ hτ => ?_⟩
    · right
      refine ⟨hopened', ?_⟩
      change ((s.circuits.record a.identity policy now outcome).circuit a.identity).openedAt = _
      rw [hself]
    · change τ ≤ ((s.circuits.record a.identity policy now outcome).circuit a.identity).openedAt
      rw [hself]
      rcases (hmem τ).mp hτ with hold | ⟨_, rfl⟩
      · exact (hlater hopened').2 τ hold
      · exact le_rfl
  · have hopened' : c'.state ≠ .opened := by rwa [← hself]
    have hold : (a.identity, τ) ∈ s.openings := by
      rcases (hmem τ).mp hτ with hold | ⟨hnow, _⟩
      · exact hold
      · exact absurd hnow hopened'
    change τ + policy.recoveryTimeoutSeconds ≤ now
    by_cases hbefore : (s.circuits.circuit a.identity).state = .opened
    · rcases hstates with ⟨hsuc, _⟩ | ⟨hop, _⟩ | ⟨hsame, _⟩
      · have hpassed := hsuccess hsuc hbefore
        have hle := (h.opened hbefore).2.2 τ hold
        linarith
      · exact absurd hop hopened'
      · exact absurd (hsame.trans hbefore) hopened'
    · exact (h.elapsed hbefore τ hold).trans hnow

theorem Guarded.onRecord_ne {i : ℕ} {a : Attempt} {outcome : CircuitOutcome} {now : ℚ}
    (hnow : s.now ≤ now) (hi : s.attempts[i]? = some a) (hne : identity ≠ a.identity)
    (h : Guarded policy s identity) : Guarded policy (s.onRecord policy i a outcome now) identity := by
  refine h.frame hnow (Circuits.record_ne hne) (fun τ => ?_) fun j => ?_
  · simp only [Attempts.onRecord]
    split
    · rw [List.mem_append, List.mem_singleton, Prod.mk.injEq]
      exact ⟨fun hmem => hmem.resolve_right fun heq => hne heq.1, .inl⟩
    · exact Iff.rfl
  · refine (probing_set (s := s)).trans ⟨fun hj => hj.2, fun hj => ⟨?_, hj⟩⟩
    rintro rfl
    obtain ⟨b, hb, hidentity, _⟩ := hj
    rw [hi, Option.some.injEq] at hb
    exact hne (by rw [hb, hidentity])

theorem guarded_step (henabled : policy.enabled = true) {e : AttemptEvent}
    (hok : Undisturbed policy s e) (hs : ∀ identity, Guarded policy s identity)
    (h : step policy s e = some t) (identity : CircuitIdentity) : Guarded policy t identity := by
  cases e with
  | beforeCall other now =>
    rw [step] at h
    split at h
    · cases h
    · rename_i hnow
      rw [← Option.some.inj h]
      by_cases hother : identity = other
      · rw [← hother]
        exact (hs identity).onBeforeCall henabled (not_lt.mp hnow)
      · exact (hs identity).onBeforeCall_ne henabled (not_lt.mp hnow) hother
  | record i outcome now =>
    rw [step] at h
    split at h
    · cases h
    · rename_i hnow
      split at h
      · rename_i a hi
        split at h
        · rw [← Option.some.inj h]
          by_cases hother : identity = a.identity
          · rw [hother]
            exact (hs a.identity).onRecord henabled (not_lt.mp hnow) hi hok
          · exact (hs identity).onRecord_ne (not_lt.mp hnow) hi hother
        · cases h
      · cases h

theorem windowsKept_of_guarded (henabled : policy.enabled = true)
    (hs : ∀ identity, Guarded policy s identity) : WindowsKept policy s := by
  intro identity now hnow hadmitted τ hτ
  rw [Circuits.beforeCall_enabled henabled] at hadmitted
  have hadmits := Circuit.beforeCall_admits hadmitted
  generalize ((s.circuits.circuit identity).beforeCall policy now).1 = c' at hadmits
  by_cases hopened : (s.circuits.circuit identity).state = .opened
  · have hle := ((hs identity).opened hopened).2.2 τ hτ
    cases hadmits with
    | closed hclosed =>
      rw [hclosed] at hopened
      cases hopened
    | probe _ _ hwindow =>
      have hpassed := hwindow hopened
      linarith
  · exact ((hs identity).elapsed hopened τ hτ).trans hnow

/-! ## After a disturbance -/

/-- A circuit that is not closed and has lost its probe admits another one. -/
theorem admits_second (henabled : policy.enabled = true) {k : ℕ} (hk : s.Probing identity k)
    (hflag : (s.circuits.circuit identity).halfOpenProbeActive = false)
    (hopen : (s.circuits.circuit identity).state ≠ .closed) :
    ∃ es u, Run (step policy) s es u ∧ ¬ OneProbe u := by
  let now := max s.now ((s.circuits.circuit identity).openedAt + policy.recoveryTimeoutSeconds)
  have hadmitted : (s.circuits.circuit identity).beforeCall policy now =
      ({ s.circuits.circuit identity with state := .halfOpen, halfOpenProbeActive := true },
        true) := by
    have hpassed : ¬ now - (s.circuits.circuit identity).openedAt < policy.recoveryTimeoutSeconds := by
      have := le_max_right s.now
        ((s.circuits.circuit identity).openedAt + policy.recoveryTimeoutSeconds)
      change (s.circuits.circuit identity).openedAt + policy.recoveryTimeoutSeconds ≤ now at this
      intro hlt
      linarith
    generalize s.circuits.circuit identity = c at hflag hopen hpassed ⊢
    obtain ⟨state, failures, openedAt, active⟩ := c
    cases state with
    | closed => exact absurd rfl hopen
    | opened => simp_all [Circuit.beforeCall, Circuit.admitProbe]
    | halfOpen => simp_all [Circuit.beforeCall, Circuit.admitProbe]
  have hstep : step policy s (.beforeCall identity now) =
      some (s.onBeforeCall policy identity now) := by
    rw [step, if_neg (not_lt.mpr (le_max_left _ _))]
  rcases onBeforeCall_cases henabled s identity now with ⟨_, hrejected⟩ | ⟨hu, _⟩
  · rw [hadmitted] at hrejected
    cases hrejected
  · rw [hadmitted] at hu
    refine ⟨_, _, .cons trivial hstep (.nil _), fun hone => ?_⟩
    rw [hu] at hone
    have hsecond := hone identity k s.attempts.length ((probing_append (s := s)).mpr (.inl hk))
      ((probing_append (s := s)).mpr (.inr ⟨rfl, rfl, by simp, rfl⟩))
    obtain ⟨a, ha, _⟩ := hk
    have hlt := (List.getElem?_eq_some_iff.mp ha).1
    omega

/-- One more attempt that fails on a closed circuit. -/
theorem fails_once (henabled : policy.enabled = true) {k : ℕ} (hk : s.Probing identity k)
    (hclosed : (s.circuits.circuit identity).state = .closed) :
    ∃ es u, Run (step policy) s es u ∧ u.Probing identity k ∧
      u.circuits.circuit identity = (s.circuits.circuit identity).recordFailure policy s.now := by
  have hadmitted : (s.circuits.circuit identity).beforeCall policy s.now =
      (s.circuits.circuit identity, true) := by
    rw [Circuit.beforeCall, hclosed]
  have hfirst : step policy s (.beforeCall identity s.now) =
      some (s.onBeforeCall policy identity s.now) := by
    rw [step, if_neg (lt_irrefl _)]
  rcases onBeforeCall_cases henabled s identity s.now with ⟨_, hrejected⟩ | ⟨hu, _⟩
  · rw [hadmitted] at hrejected
    cases hrejected
  · rw [hadmitted] at hu
    rw [hu] at hfirst
    have hprobe : decide ((s.circuits.circuit identity).state = .halfOpen) = false := by
      rw [hclosed]
      rfl
    rw [hprobe] at hfirst
    generalize hmid : (⟨s.circuits.set identity (s.circuits.circuit identity), s.now,
      s.attempts ++ [⟨identity, false, true⟩], s.openings⟩ : Attempts) = mid at hfirst
    have hlast : mid.attempts[s.attempts.length]? = some ⟨identity, false, true⟩ := by
      rw [← hmid]
      simp
    have hcircuit : mid.circuits.circuit identity = s.circuits.circuit identity := by
      rw [← hmid]
      exact Circuits.circuit_set_self _ _ _
    have hnow : mid.now = s.now := by rw [← hmid]
    have hsecond : step policy mid (.record s.attempts.length .failure s.now) =
        some (mid.onRecord policy s.attempts.length ⟨identity, false, true⟩ .failure s.now) := by
      simp [step, hnow, hlast]
    refine ⟨_, _, .cons trivial hfirst (.cons trivial hsecond (.nil _)), ?_, ?_⟩
    · refine (probing_set (s := mid)).mpr ⟨?_, ?_⟩
      · obtain ⟨a, ha, _⟩ := hk
        have hlt := (List.getElem?_eq_some_iff.mp ha).1
        omega
      · rw [← hmid]
        exact (probing_append (s := s)).mpr (.inl hk)
    · change (mid.circuits.record identity policy s.now .failure).circuit identity = _
      rw [Circuits.record_self henabled, hcircuit]
      rfl

/-- Failures open a closed circuit; the induction is on the failures that are still missing. -/
theorem opens_again (henabled : policy.enabled = true) {k : ℕ} : ∀ (n : ℕ) (s : Attempts),
    s.Probing identity k → (s.circuits.circuit identity).state = .closed →
    policy.failureThreshold ≤ (s.circuits.circuit identity).failures + n →
    ∃ es u, Run (step policy) s es u ∧ u.Probing identity k ∧
      (u.circuits.circuit identity).state = .opened ∧
      (u.circuits.circuit identity).halfOpenProbeActive = false := by
  intro n
  induction n with
  | zero =>
    intro s hk hclosed hn
    obtain ⟨es, u, hrun, hu, hcircuit⟩ := fails_once henabled hk hclosed
    refine ⟨es, u, hrun, hu, ?_⟩
    rw [hcircuit, Circuit.recordFailure, if_pos (.inl (by simp only; omega))]
    exact ⟨rfl, rfl⟩
  | succ n ih =>
    intro s hk hclosed hn
    obtain ⟨es, u, hrun, hu, hcircuit⟩ := fails_once henabled hk hclosed
    by_cases htrips : policy.failureThreshold ≤ (s.circuits.circuit identity).failures + 1
    · refine ⟨es, u, hrun, hu, ?_⟩
      rw [hcircuit, Circuit.recordFailure, if_pos (.inl htrips)]
      exact ⟨rfl, rfl⟩
    · have hcounted : u.circuits.circuit identity = { s.circuits.circuit identity with
          halfOpenProbeActive := false
          failures := (s.circuits.circuit identity).failures + 1 } := by
        rw [hcircuit, Circuit.recordFailure, if_neg]
        rintro (h | h)
        · exact htrips h
        · rw [hclosed] at h
          cases h
      obtain ⟨fs, v, hrest, hv⟩ := ih u hu (by rw [hcounted]; exact hclosed)
        (by rw [hcounted]; simp only; omega)
      exact ⟨es ++ fs, v, hrun.append hrest, hv⟩

/-- A probe whose circuit forgot it is joined by a second one. -/
theorem second_probe (henabled : policy.enabled = true) {k : ℕ} (hk : s.Probing identity k)
    (hflag : (s.circuits.circuit identity).halfOpenProbeActive = false) :
    ∃ es u, Run (step policy) s es u ∧ ¬ OneProbe u := by
  by_cases hclosed : (s.circuits.circuit identity).state = .closed
  · obtain ⟨es, u, hrun, hu, hopened, hreleased⟩ :=
      opens_again henabled policy.failureThreshold s hk hclosed (Nat.le_add_left _ _)
    obtain ⟨fs, v, hrest, hv⟩ := admits_second henabled hu hreleased (by rw [hopened]; decide)
    exact ⟨es ++ fs, v, hrun.append hrest, hv⟩
  · exact admits_second henabled hk hflag hclosed

/-- What a disturbance leads to. -/
theorem disturbed_breaks (henabled : policy.enabled = true)
    (hs : ∀ identity, Guarded policy s identity) {e : AttemptEvent}
    (hdisturbed : ¬ Undisturbed policy s e) (h : step policy s e = some t) :
    ∃ es u, Run (step policy) t es u ∧ ¬ (OneProbe u ∧ WindowsKept policy u) := by
  cases e with
  | beforeCall other now => exact absurd trivial hdisturbed
  | record i outcome now =>
    rw [step] at h
    split at h
    · cases h
    split at h
    · rename_i a hi
      split at h
      · rename_i hnow _
        rw [Undisturbed] at hdisturbed
        push Not at hdisturbed
        obtain ⟨b, hb, hbroken⟩ := hdisturbed
        rw [hi, Option.some.injEq] at hb
        subst hb
        have ht := Option.some.inj h
        have hcircuit : t.circuits.circuit a.identity =
            Circuits.recorded (s.circuits.circuit a.identity) policy now outcome := by
          rw [← ht]
          exact Circuits.record_self henabled outcome
        by_cases hothers : ∀ j, s.Probing a.identity j → j = i
        · -- the window of an open circuit is cut short
          obtain ⟨hsuccess, hopened, hearly⟩ := hbroken hothers
          refine ⟨[], t, .nil t, fun hsafe => ?_⟩
          rw [hsuccess] at hcircuit
          have hadmitted : (t.circuits.beforeCall a.identity policy now).2 = true := by
            rw [Circuits.beforeCall_enabled henabled, hcircuit]
            rfl
          have hlogged : (a.identity, (s.circuits.circuit a.identity).openedAt) ∈ t.openings := by
            rw [← ht]
            simp only [Attempts.onRecord]
            split
            · exact List.mem_append_left _ ((hs a.identity).opened hopened).2.1
            · exact ((hs a.identity).opened hopened).2.1
          have hkept := hsafe.2 a.identity now (by rw [← ht]; exact le_rfl) hadmitted _ hlogged
          linarith
        · push Not at hothers
          obtain ⟨j, hj, hne⟩ := hothers
          have hprobing : t.Probing a.identity j := by
            rw [← ht]
            exact (probing_set (s := s)).mpr ⟨hne, hj⟩
          obtain ⟨es, u, hrun, hu⟩ := second_probe henabled hprobing
            (by rw [hcircuit]; exact Circuits.recorded_releases _ policy now outcome)
          exact ⟨es, u, hrun, fun hsafe => hu hsafe.1⟩
      · cases h
    · cases h

end

/-! ## Whole runs -/

/-- Undisturbed attempts keep one probe and every window; after the first disturbance some
continuation breaks one of them. -/
theorem undisturbed_attempts {policy : CircuitBreakerPolicy} (henabled : policy.enabled = true)
    {now : ℚ} {es : List AttemptEvent} {s : Attempts}
    (hrun : RunOf (step policy) (Undisturbed policy) (new now) es s) :
    (OneProbe s ∧ WindowsKept policy s) ∧
    ∀ e t, step policy s e = some t → ¬ Undisturbed policy s e →
      ∃ fs u, Run (step policy) t fs u ∧ ¬ (OneProbe u ∧ WindowsKept policy u) := by
  have hguarded := hrun.invariant (fun s => ∀ identity, Guarded policy s identity)
    (fun _ _ _ hok hs h => guarded_step henabled hok hs h) fun _ => guarded_new now
  exact ⟨⟨fun identity => (hguarded identity).one, windowsKept_of_guarded henabled hguarded⟩,
    fun e t h hdisturbed => disturbed_breaks henabled hguarded hdisturbed h⟩

/-! ## A late outcome -/

/-- One failure opens the circuit for ten seconds. -/
def tenSeconds : CircuitBreakerPolicy := ⟨.ofSource, 1, 10, true, Nat.one_pos, ten_seconds_nonneg⟩

def onlySource : CircuitIdentity := ⟨"rest", .ofSource, ""⟩

/-- The circuit opens, rejects an attempt and recovers through a probe. -/
def recovery : List AttemptEvent :=
  [.beforeCall onlySource 0, .record 0 .failure 1, .beforeCall onlySource 5,
    .beforeCall onlySource 11]

theorem undisturbed_attempts_recovery : ∃ s : Attempts,
    (s.attempts.map fun a => (a.probe, a.outstanding)) = [(false, false), (true, true)] ∧
      OneProbe s := by
  have hend : (execOf (step tenSeconds) (fun s e => match e with
      | .beforeCall _ _ => true
      | .record i outcome _ => decide (i = 0 ∧ s.attempts.length = 1 ∧ outcome = .failure)) (new 0)
      recovery).map (fun s => s.attempts.map fun a => (a.probe, a.outstanding)) =
      some [(false, false), (true, true)] := by decide +kernel
  obtain ⟨s, hs, hattempts⟩ := Option.map_eq_some_iff.mp hend
  have hrun : RunOf (step tenSeconds) (Undisturbed tenSeconds) (new 0) recovery s := by
    refine (execOf_run hs).mono fun s e hok => ?_
    cases e with
    | beforeCall identity now => trivial
    | record i outcome now =>
      obtain ⟨rfl, hlength, rfl⟩ := of_decide_eq_true hok
      refine fun a ha => ⟨fun j ⟨b, hb, _⟩ => ?_, fun hsuccess => by cases hsuccess⟩
      have hlt := (List.getElem?_eq_some_iff.mp hb).1
      omega
  exact ⟨s, hattempts, (undisturbed_attempts rfl hrun).1.1⟩

/-- An attempt from before the opening is skipped while the probe is outstanding. -/
def lateSkip : List AttemptEvent :=
  [.beforeCall onlySource 0, .beforeCall onlySource 0, .record 0 .failure 0,
    .beforeCall onlySource 10, .record 1 .skipped 11, .beforeCall onlySource 11]

theorem late_skip_counterexample :
    ¬ ∀ policy : CircuitBreakerPolicy, policy.enabled = true →
      ∀ (now : ℚ) (es : List AttemptEvent) (s : Attempts), Run (step policy) (new now) es s →
        OneProbe s ∧ WindowsKept policy s := by
  intro h
  have hend : (exec (step tenSeconds) (new 0) lateSkip).map (fun s =>
      s.attempts.map fun a => (a.identity, a.probe, a.outstanding)) =
      some [(onlySource, false, false), (onlySource, false, false), (onlySource, true, true),
        (onlySource, true, true)] := by decide +kernel
  obtain ⟨s, hs, hattempts⟩ := Option.map_eq_some_iff.mp hend
  have hprobing : ∀ i, i = 2 ∨ i = 3 → s.Probing onlySource i := by
    intro i hi
    have hget := congrArg (fun l : List (CircuitIdentity × Bool × Bool) => l[i]?) hattempts
    simp only [List.getElem?_map] at hget
    rcases hi with rfl | rfl
    · obtain ⟨a, ha, hview⟩ := Option.map_eq_some_iff.mp hget
      rw [Prod.mk.injEq, Prod.mk.injEq] at hview
      exact ⟨a, ha, hview⟩
    · obtain ⟨a, ha, hview⟩ := Option.map_eq_some_iff.mp hget
      rw [Prod.mk.injEq, Prod.mk.injEq] at hview
      exact ⟨a, ha, hview⟩
  have hsame := (h tenSeconds rfl 0 _ s (exec_run hs)).1 onlySource 2 3 (hprobing 2 (.inl rfl))
    (hprobing 3 (.inr rfl))
  omega

end Attempts
end Coalestra
