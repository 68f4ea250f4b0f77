import Mathlib.Algebra.Order.Ring.Rat
import Mathlib.Tactic.Linarith
import Mathlib.Tactic.Positivity
import Mathlib.Tactic.Ring

/-! # Retries

`resilience/retry.py`: the delay before the next attempt, and the loop that makes the attempts.
Numbers are Python's: an integer, or a float as an exact rational; the conversion of an integer to a
float fails from `2 ** 1024` on. -/

namespace Coalestra
set_option autoImplicit false
set_option maxHeartbeats 250000

/-! ## Delays -/

inductive Number
  | int (value : ℤ)
  | float (value : ℚ)
  deriving DecidableEq

namespace Number

def toRat : Number → ℚ
  | .int value => value
  | .float value => value

@[simp] theorem toRat_int (value : ℤ) : (int value).toRat = value := rfl

@[simp] theorem toRat_float (value : ℚ) : (float value).toRat = value := rfl

def isInt : Number → Bool
  | .int _ => true
  | .float _ => false

/-- The least power of two that is no float. -/
def floatLimit : ℤ := 2 ^ 1024

/-- `none` is `OverflowError: int too large to convert to float`. -/
def toFloat : Number → Option ℚ
  | .int value => if |value| < floatLimit then some value else none
  | .float value => some value

/-- An operation on two integers or, converted, on two floats. -/
def arithmetic (onInt : ℤ → ℤ → ℤ) (onFloat : ℚ → ℚ → ℚ) : Number → Number → Option Number
  | .int a, .int b => some (.int (onInt a b))
  | a, b => a.toFloat.bind fun x => b.toFloat.map fun y => .float (onFloat x y)

def mul : Number → Number → Option Number := arithmetic (· * ·) (· * ·)

def add : Number → Number → Option Number := arithmetic (· + ·) (· + ·)

/-- `min(a, b)`, which compares exactly. -/
def min (a b : Number) : Number := if b.toRat < a.toRat then b else a

/-- `max(a, b)`. -/
def max (a b : Number) : Number := if a.toRat < b.toRat then b else a

/-- `math.isfinite`: every finite float lies below the limit, and so does every integer that
converts to one. -/
def Finite (a : Number) : Prop := |a.toRat| < floatLimit

theorem toFloat_finite {a : Number} (h : a.Finite) : a.toFloat = some a.toRat := by
  cases a with
  | int value =>
    have hlt : |value| < floatLimit := by
      rw [Finite, toRat_int] at h
      exact_mod_cast h
    rw [toFloat, if_pos hlt, toRat_int]
  | float value => rfl

theorem mul_finite {a b : Number} (ha : a.Finite) (hb : b.Finite) : ∃ c, a.mul b = some c := by
  unfold mul arithmetic
  split
  · exact ⟨_, rfl⟩
  · rw [toFloat_finite ha, toFloat_finite hb]
    exact ⟨_, rfl⟩

theorem add_float {a : Number} (h : a.Finite) (x : ℚ) :
    a.add (.float x) = some (.float (a.toRat + x)) := by
  have hfloat := toFloat_finite h
  cases a with
  | int value =>
    simp only [add, arithmetic, hfloat, Option.bind_some]
    rfl
  | float value => rfl

theorem toRat_min (a b : Number) : (a.min b).toRat = Min.min a.toRat b.toRat := by
  unfold min
  split
  · rename_i hlt
    rw [min_eq_right hlt.le]
  · rename_i hle
    rw [min_eq_left (not_lt.mp hle)]

end Number

/-- The fields after the data are the checks of `__post_init__`. -/
structure RetryPolicy where
  maxAttempts : ℕ
  baseDelaySeconds : Number
  maxDelaySeconds : Number
  jitterRatio : Number
  attempts_pos : 1 ≤ maxAttempts
  base_finite : baseDelaySeconds.Finite
  max_finite : maxDelaySeconds.Finite
  jitter_finite : jitterRatio.Finite
  base_nonneg : 0 ≤ baseDelaySeconds.toRat
  base_le_max : baseDelaySeconds.toRat ≤ maxDelaySeconds.toRat
  jitter_nonneg : 0 ≤ jitterRatio.toRat
  jitter_le_one : jitterRatio.toRat ≤ 1

namespace RetryPolicy

/-- `delay_for_attempt`; `draw` is what `random.uniform(-jitter, jitter)` returns. -/
def delayForAttempt (p : RetryPolicy) (attempt : ℕ) (draw : ℚ) : Option Number :=
  (p.baseDelaySeconds.mul (.int (2 ^ (attempt - 1)))).bind fun grown =>
    let base := p.maxDelaySeconds.min grown
    if base.toRat = 0 ∨ p.jitterRatio.toRat = 0 then some base
    else (base.mul p.jitterRatio).bind fun _jitter =>
      (base.add (.float draw)).map fun delay => (Number.float 0).max delay

/-- The base delay of the attempt without the cap. -/
def grownDelay (p : RetryPolicy) (attempt : ℕ) : ℚ :=
  p.baseDelaySeconds.toRat * 2 ^ (attempt - 1)

/-- The interval that the jitter is drawn from. -/
def AllowedDraw (p : RetryPolicy) (attempt : ℕ) (draw : ℚ) : Prop :=
  |draw| ≤ Min.min p.maxDelaySeconds.toRat (p.grownDelay attempt) * p.jitterRatio.toRat

/-- The growth of the base delay overflows exactly for a float and a factor from `2 ** 1024` on. -/
theorem grown_mul (p : RetryPolicy) (attempt : ℕ) :
    ((p.baseDelaySeconds.isInt = true ∨ attempt ≤ 1024) ∧
      ∃ grown, p.baseDelaySeconds.mul (.int (2 ^ (attempt - 1))) = some grown ∧
        grown.toRat = p.grownDelay attempt) ∨
    (¬ (p.baseDelaySeconds.isInt = true ∨ attempt ≤ 1024) ∧
      p.baseDelaySeconds.mul (.int (2 ^ (attempt - 1))) = none) := by
  unfold grownDelay
  cases hbase : p.baseDelaySeconds with
  | int value =>
    left
    refine ⟨.inl rfl, _, rfl, ?_⟩
    simp [Number.toRat]
  | float value =>
    have habs : |(2 : ℤ) ^ (attempt - 1)| = 2 ^ (attempt - 1) := abs_of_pos (by positivity)
    by_cases hattempt : attempt ≤ 1024
    · left
      have hlt : (2 : ℤ) ^ (attempt - 1) < Number.floatLimit :=
        pow_lt_pow_right₀ (by norm_num) (by omega)
      refine ⟨.inr hattempt, .float (value * 2 ^ (attempt - 1)), ?_, rfl⟩
      simp [Number.mul, Number.arithmetic, Number.toFloat, habs, hlt]
    · right
      have hge : ¬ (2 : ℤ) ^ (attempt - 1) < Number.floatLimit :=
        not_lt.mpr (pow_le_pow_right₀ (by norm_num) (by omega))
      refine ⟨?_, ?_⟩
      · rintro (hint | hle)
        · cases hint
        · exact hattempt hle
      · simp only [Number.mul, Number.arithmetic, Number.toFloat, habs, if_neg hge]
        rfl

theorem grownDelay_nonneg (p : RetryPolicy) (attempt : ℕ) : 0 ≤ p.grownDelay attempt :=
  mul_nonneg p.base_nonneg (by positivity)

/-- The capped delay plus the draw, unless the capped delay or the jitter is zero. -/
theorem delayForAttempt_some (p : RetryPolicy) {attempt : ℕ} {draw : ℚ} {grown : Number}
    (hgrown : p.baseDelaySeconds.mul (.int (2 ^ (attempt - 1))) = some grown)
    (hvalue : grown.toRat = p.grownDelay attempt) (hdraw : p.AllowedDraw attempt draw) :
    ∃ delay, p.delayForAttempt attempt draw = some delay ∧
      delay.toRat = Min.min p.maxDelaySeconds.toRat (p.grownDelay attempt) + draw ∧
        0 ≤ delay.toRat := by
  have hmax := p.base_nonneg.trans p.base_le_max
  have hbase := Number.toRat_min p.maxDelaySeconds grown
  rw [hvalue] at hbase
  have hnonneg : 0 ≤ Min.min p.maxDelaySeconds.toRat (p.grownDelay attempt) :=
    le_min hmax (p.grownDelay_nonneg attempt)
  unfold AllowedDraw at hdraw
  unfold delayForAttempt
  rw [hgrown, Option.bind_some]
  dsimp only
  split
  · rename_i hzero
    refine ⟨_, rfl, ?_, hbase ▸ hnonneg⟩
    have hnone : draw = 0 := by
      rw [← hbase] at hdraw
      rcases hzero with hzero | hzero
      · simpa [hzero] using hdraw
      · simpa [hzero] using hdraw
    rw [hbase, hnone, add_zero]
  · have hfinite : (p.maxDelaySeconds.min grown).Finite := by
      have hlimit := p.max_finite
      unfold Number.Finite at hlimit ⊢
      rw [abs_of_nonneg hmax] at hlimit
      rw [hbase, abs_of_nonneg hnonneg]
      exact lt_of_le_of_lt (min_le_left _ _) hlimit
    obtain ⟨jitter, hjitter⟩ := Number.mul_finite hfinite p.jitter_finite
    rw [hjitter, Option.bind_some, Number.add_float hfinite, Option.map_some, hbase]
    have hle : Min.min p.maxDelaySeconds.toRat (p.grownDelay attempt) * p.jitterRatio.toRat ≤
        Min.min p.maxDelaySeconds.toRat (p.grownDelay attempt) :=
      mul_le_of_le_one_right hnonneg p.jitter_le_one
    have hsum : 0 ≤ Min.min p.maxDelaySeconds.toRat (p.grownDelay attempt) + draw := by
      have hlow := (abs_le.mp hdraw).1
      linarith
    refine ⟨_, rfl, ?_, ?_⟩
    · unfold Number.max
      split
      · rfl
      · rename_i hnot
        exact le_antisymm hsum (not_lt.mp hnot)
    · unfold Number.max
      split
      · exact hsum
      · exact le_rfl

theorem finite_of_le_one {a : Number} (h0 : 0 ≤ a.toRat) (h1 : a.toRat ≤ 1) : a.Finite := by
  rw [Number.Finite, abs_of_nonneg h0]
  have hlimit : (1 : ℚ) < Number.floatLimit := by
    have hpow : (1 : ℤ) < Number.floatLimit := one_lt_pow₀ (by norm_num) (by norm_num)
    exact_mod_cast hpow
  exact lt_of_le_of_lt h1 hlimit

/-- Two attempts, a delay of this base and at most a second, and ten percent of jitter. -/
def upToASecond (base : ℚ) (h0 : 0 ≤ base) (h1 : base ≤ 1) : RetryPolicy where
  maxAttempts := 2
  baseDelaySeconds := .float base
  maxDelaySeconds := .float 1
  jitterRatio := .float (1 / 10)
  attempts_pos := by decide
  base_finite := finite_of_le_one h0 h1
  max_finite := finite_of_le_one (by norm_num) (by norm_num)
  jitter_finite := finite_of_le_one (by norm_num) (by norm_num)
  base_nonneg := h0
  base_le_max := h1
  jitter_nonneg := by norm_num
  jitter_le_one := by norm_num

end RetryPolicy

/-! ## Attempts -/

/-- An exception object. `attempts` is the attribute `__coalestra_attempts__`; a third-party
exception may refuse attributes. -/
structure RaisedError (E : Type) where
  error : E
  attempts : Option ℕ
  acceptsAttributes : Bool

/-- How one call of the operation ends; `interrupted` is an exception that is no `Exception`. -/
inductive Outcome (T E : Type)
  | value (value : T)
  | error (error : RaisedError E)
  | interrupted

/-- What a call of `run_with_retry` is given and meets: how each attempt ends, the delay and the
clock reading after it, and whether the sleep is left undisturbed. -/
structure RetryCall (T E : Type) where
  maxAttempts : ℕ
  attempts_pos : 1 ≤ maxAttempts
  retryable : RaisedError E → Bool
  deadline : Option ℚ
  outcome : ℕ → Outcome T E
  delay : ℕ → ℚ
  monotonic : ℕ → ℚ
  wakes : ℕ → Bool

inductive RetryEvent
  | called (attempt : ℕ)
  | slept (delay : ℚ) (remaining : Option ℚ)

/-- `exhausted` is the guard behind the loop. -/
inductive RetryResult (T E : Type)
  | returned (value : T) (attempts : ℕ)
  | raised (error : RaisedError E)
  | interrupted
  | exhausted

section
variable {T E : Type}

/-- `_remember_attempts`. -/
def RaisedError.remember (e : RaisedError E) (attempts : ℕ) : RaisedError E :=
  if e.acceptsAttributes then { e with attempts := some attempts } else e

/-- `attempts_for`. -/
def attemptsFor (e : RaisedError E) (default : ℕ) : ℕ := max 1 (e.attempts.getD default)

/-- `SourceCalls.attempt_count`. -/
def attemptCount (e : RaisedError E) (retryable : Bool) (maxAttempts : ℕ) : ℕ :=
  attemptsFor e (if retryable then maxAttempts else 1)

namespace RetryCall
variable (c : RetryCall T E)

def remaining (attempt : ℕ) : Option ℚ := c.deadline.map fun d => d - c.monotonic attempt

/-- `remaining <= 0 or delay >= remaining`. -/
def outOfTime (attempt : ℕ) : Bool :=
  (c.remaining attempt).any fun remaining =>
    decide (remaining ≤ 0 ∨ remaining ≤ c.delay attempt)

/-- The loop from `attempt` on, for so many more attempts. -/
def attemptFrom : ℕ → ℕ → RetryResult T E × List RetryEvent
  | 0, _ => (.exhausted, [])
  | more + 1, attempt =>
    match c.outcome attempt with
    | .value value => (.returned value attempt, [.called attempt])
    | .interrupted => (.interrupted, [.called attempt])
    | .error e =>
      let e := e.remember attempt
      if c.maxAttempts ≤ attempt ∨ c.retryable e = false then (.raised e, [.called attempt])
      else if c.outOfTime attempt then (.raised e, [.called attempt])
      else if c.delay attempt ≤ 0 then
        let rest := attemptFrom more (attempt + 1)
        (rest.1, .called attempt :: rest.2)
      else
        let sleep := .slept (c.delay attempt) (c.remaining attempt)
        if c.wakes attempt then
          let rest := attemptFrom more (attempt + 1)
          (rest.1, .called attempt :: sleep :: rest.2)
        else (.interrupted, [.called attempt, sleep])

def runWithRetry : RetryResult T E × List RetryEvent := c.attemptFrom c.maxAttempts 1

/-- The attempts at which the operation was called. -/
def calls (events : List RetryEvent) : List ℕ :=
  events.filterMap fun
    | .called attempt => some attempt
    | .slept _ _ => none

/-- The attempt raises its error: it is the last one, the error is not retryable, or no time is
left for the next delay. -/
def Raises (attempt : ℕ) (e : RaisedError E) : Prop :=
  attempt = c.maxAttempts ∨ c.retryable (e.remember attempt) = false ∨
    ∃ d, c.deadline = some d ∧
      (d - c.monotonic attempt ≤ 0 ∨ d - c.monotonic attempt ≤ c.delay attempt)

/-- The attempt is the last one that is made. -/
def Ends (attempt : ℕ) : Prop :=
  match c.outcome attempt with
  | .value _ => True
  | .interrupted => True
  | .error e => c.Raises attempt e ∨ (0 < c.delay attempt ∧ c.wakes attempt = false)

/-- How the call ends with that attempt. -/
def Result (attempt : ℕ) (result : RetryResult T E) : Prop :=
  match c.outcome attempt with
  | .value value => result = .returned value attempt
  | .interrupted => result = .interrupted
  | .error e => (c.Raises attempt e ∧ result = .raised (e.remember attempt)) ∨
      (¬ c.Raises attempt e ∧ result = .interrupted)

variable {c}

theorem outOfTime_iff {attempt : ℕ} : c.outOfTime attempt = true ↔ ∃ d, c.deadline = some d ∧
    (d - c.monotonic attempt ≤ 0 ∨ d - c.monotonic attempt ≤ c.delay attempt) := by
  unfold outOfTime remaining
  cases c.deadline <;> simp

theorem calls_append (events events' : List RetryEvent) :
    calls (events ++ events') = calls events ++ calls events' := List.filterMap_append

/-- What a run of the loop from `attempt` on amounts to. -/
def MatchesFrom (c : RetryCall T E) (attempt : ℕ) (run : RetryResult T E × List RetryEvent) :
    Prop :=
  ∃ k, attempt ≤ k ∧ k ≤ c.maxAttempts ∧ c.Ends k ∧ (∀ j, attempt ≤ j → j < k → ¬ c.Ends j) ∧
    calls run.2 = List.range' attempt (k + 1 - attempt) ∧ c.Result k run.1 ∧
    ∀ delay remaining, .slept delay (some remaining) ∈ run.2 → delay < remaining

theorem matches_here {attempt : ℕ} {result : RetryResult T E} {events : List RetryEvent}
    (hle : attempt ≤ c.maxAttempts) (hends : c.Ends attempt) (hresult : c.Result attempt result)
    (hcalls : calls events = [attempt])
    (hslept : ∀ delay remaining, .slept delay (some remaining) ∈ events → delay < remaining) :
    c.MatchesFrom attempt (result, events) := by
  refine ⟨attempt, le_rfl, hle, hends, fun j hj hlt => by omega, ?_, hresult, hslept⟩
  rw [hcalls, Nat.add_sub_cancel_left]
  rfl

theorem matches_later {attempt : ℕ} {run : RetryResult T E × List RetryEvent}
    {events : List RetryEvent} (hends : ¬ c.Ends attempt) (hcalls : calls events = [attempt])
    (hslept : ∀ delay remaining, .slept delay (some remaining) ∈ events → delay < remaining)
    (hrest : c.MatchesFrom (attempt + 1) run) :
    c.MatchesFrom attempt (run.1, events ++ run.2) := by
  obtain ⟨k, hk, hmax, hendsk, hfirst, hcallsk, hresult, hsleptk⟩ := hrest
  refine ⟨k, by omega, hmax, hendsk, fun j hj hlt => ?_, ?_, hresult, fun delay remaining h => ?_⟩
  · rcases Nat.eq_or_lt_of_le hj with rfl | hj
    · exact hends
    · exact hfirst j hj hlt
  · have hlen : k + 1 - attempt = (k + 1 - (attempt + 1)) + 1 := by omega
    rw [calls_append, hcalls, hcallsk, hlen, List.range'_succ]
    rfl
  · rcases List.mem_append.mp h with h | h
    · exact hslept delay remaining h
    · exact hsleptk delay remaining h

/-- An error that the attempt does not raise leaves more time than the delay. -/
theorem remaining_of_not_raises {attempt : ℕ} {e : RaisedError E} (h : ¬ c.Raises attempt e)
    {remaining : ℚ} (hremaining : c.remaining attempt = some remaining) :
    c.delay attempt < remaining := by
  unfold RetryCall.remaining at hremaining
  obtain ⟨d, hd, rfl⟩ := Option.map_eq_some_iff.mp hremaining
  by_contra hle
  exact h (.inr (.inr ⟨d, hd, .inr (not_lt.mp hle)⟩))

/-- From an attempt that is not above the maximum the loop ends with the first attempt that ends
it, and sleeps only for less than the time remaining. -/
theorem attemptFrom_matches : ∀ (more attempt : ℕ), attempt + more = c.maxAttempts + 1 →
    0 < more → c.MatchesFrom attempt (c.attemptFrom more attempt) := by
  intro more
  induction more with
  | zero => exact fun _ _ h => absurd h (lt_irrefl 0)
  | succ more ih =>
    intro attempt hsum _
    have hle : attempt ≤ c.maxAttempts := by omega
    cases houtcome : c.outcome attempt with
    | value value =>
      simp only [attemptFrom, houtcome]
      exact matches_here hle (by simp [Ends, houtcome]) (by simp [Result, houtcome]) rfl
        (by simp)
    | interrupted =>
      simp only [attemptFrom, houtcome]
      exact matches_here hle (by simp [Ends, houtcome]) (by simp [Result, houtcome]) rfl
        (by simp)
    | error e =>
      have hends : c.Ends attempt ↔
          c.Raises attempt e ∨ (0 < c.delay attempt ∧ c.wakes attempt = false) := by
        simp [Ends, houtcome]
      by_cases hraises : c.Raises attempt e
      · have hraised : c.attemptFrom (more + 1) attempt =
            (.raised (e.remember attempt), [.called attempt]) := by
          simp only [attemptFrom, houtcome]
          split
          · rfl
          · rename_i hgoes
            rw [not_or, not_le] at hgoes
            have htime : c.outOfTime attempt = true := outOfTime_iff.mpr <| by
              rcases hraises with rfl | hnot | htime
              · exact absurd hgoes.1 (lt_irrefl _)
              · exact absurd hnot hgoes.2
              · exact htime
            rw [if_pos htime]
        rw [hraised]
        exact matches_here hle (hends.mpr (.inl hraises))
          (by simp [Result, houtcome, hraises]) rfl (by simp)
      · have hretries : ¬ (c.maxAttempts ≤ attempt ∨ c.retryable (e.remember attempt) = false) := by
          rintro (hmax | hnot)
          · exact hraises (.inl (le_antisymm hle hmax))
          · exact hraises (.inr (.inl hnot))
        have htime : ¬ c.outOfTime attempt = true := fun h =>
          hraises (.inr (.inr (outOfTime_iff.mp h)))
        have hmore : 0 < more := by omega
        have hrest := ih (attempt + 1) (by omega) hmore
        have hsleeps : ∀ delay remaining, RetryEvent.slept delay (some remaining) ∈
            [.called attempt, .slept (c.delay attempt) (c.remaining attempt)] →
              delay < remaining := by
          intro delay remaining h
          simp only [List.mem_cons, reduceCtorEq, RetryEvent.slept.injEq, List.not_mem_nil,
            or_false, false_or] at h
          rw [h.1]
          exact remaining_of_not_raises hraises h.2.symm
        simp only [attemptFrom, houtcome]
        rw [if_neg hretries, if_neg htime]
        by_cases hdelay : c.delay attempt ≤ 0
        · rw [if_pos hdelay]
          have hgoes : ¬ c.Ends attempt := by
            intro h
            rcases hends.mp h with h | h
            · exact hraises h
            · exact absurd h.1 (not_lt.mpr hdelay)
          have hlater := matches_later hgoes (rfl : calls [.called attempt] = [attempt])
            (by simp) hrest
          exact hlater
        · rw [if_neg hdelay]
          cases hwakes : c.wakes attempt with
          | true =>
            have hgoes : ¬ c.Ends attempt := by
              intro h
              rcases hends.mp h with h | h
              · exact hraises h
              · rw [hwakes] at h
                cases h.2
            have hlater := matches_later hgoes rfl hsleeps hrest
            exact hlater
          | false =>
            exact matches_here hle (hends.mpr (.inr ⟨not_le.mp hdelay, hwakes⟩))
              (by simp [Result, houtcome, hraises]) rfl hsleeps

/-- The operation is called for the attempts up to the first one that ends the loop, and for no
other; its value comes back with the number of attempts, or its error is raised again, annotated
with that number where it accepts attributes. Every sleep is shorter than the time remaining. -/
theorem retry_loop_matches (c : RetryCall T E) :
    ∃ k, 1 ≤ k ∧ k ≤ c.maxAttempts ∧ c.Ends k ∧ (∀ j, 1 ≤ j → j < k → ¬ c.Ends j) ∧
      calls c.runWithRetry.2 = List.range' 1 k ∧ c.Result k c.runWithRetry.1 ∧
      (∀ e, c.runWithRetry.1 = .raised e → ∃ e₀, c.outcome k = .error e₀ ∧ e.error = e₀.error ∧
        if e₀.acceptsAttributes then
          e.attempts = some k ∧ ∀ retryable, attemptCount e retryable c.maxAttempts = k
        else e = e₀) ∧
      ∀ delay remaining, .slept delay (some remaining) ∈ c.runWithRetry.2 → delay < remaining := by
  obtain ⟨k, hk, hmax, hends, hfirst, hcalls, hresult, hslept⟩ :=
    attemptFrom_matches (c := c) c.maxAttempts 1 (Nat.add_comm _ _) c.attempts_pos
  rw [Nat.add_sub_cancel] at hcalls
  refine ⟨k, hk, hmax, hends, hfirst, hcalls, hresult, fun e he => ?_, hslept⟩
  have hresult' : c.Result k (.raised e) := he ▸ hresult
  unfold Result at hresult'
  cases houtcome : c.outcome k with
  | value value =>
    rw [houtcome] at hresult'
    cases hresult'
  | interrupted =>
    rw [houtcome] at hresult'
    cases hresult'
  | error e₀ =>
    rw [houtcome] at hresult'
    dsimp only at hresult'
    rcases hresult' with ⟨_, hraised⟩ | ⟨_, hinterrupted⟩
    · cases hraised
      refine ⟨e₀, rfl, ?_, ?_⟩
      · unfold RaisedError.remember
        split <;> rfl
      · split
        · rename_i haccepts
          simp [RaisedError.remember, haccepts, attemptCount, attemptsFor, hk]
        · rename_i haccepts
          simp [RaisedError.remember, haccepts]
    · cases hinterrupted

/-- One attempt, whose error refuses attributes. -/
def refusingError : RetryCall ℕ ℕ where
  maxAttempts := 1
  attempts_pos := Nat.one_pos
  retryable := fun _ => false
  deadline := none
  outcome := fun _ => .error ⟨0, none, false⟩
  delay := fun _ => 0
  monotonic := fun _ => 0
  wakes := fun _ => true

theorem unannotated_counterexample : ¬ ∀ (c : RetryCall ℕ ℕ) (e : RaisedError ℕ),
    c.runWithRetry.1 = .raised e →
      ∃ k, calls c.runWithRetry.2 = List.range' 1 k ∧ e.attempts = some k := by
  intro h
  obtain ⟨k, _, hattempts⟩ := h refusingError ⟨0, none, false⟩ rfl
  cases hattempts

end RetryCall
end
end Coalestra
