import Coalestra.Lib.TimedAwait

/-! # Awaiting within a deadline

`core/deadline.py`: `remaining_deadline_seconds` and `await_with_deadline`, in which every await of
the cache by a builder is wrapped. The caller's clock is the one that drives the event loop's
timers. Message texts are left out. -/

namespace Coalestra
set_option autoImplicit false
set_option maxHeartbeats 250000

/-- Where `await_with_deadline` raises `SnapshotDeadlineExceededError`. -/
inductive DeadlineExceeded
  | before
  | whileWaiting
  | afterCompletion
  deriving DecidableEq, Repr

def remainingDeadlineSeconds (deadline : Option ℚ) (now : ℚ) :
    Except DeadlineExceeded (Option ℚ) :=
  match deadline with
  | none => .ok none
  | some deadline => if deadline - now ≤ 0 then .error .before else .ok (some (deadline - now))

inductive DeadlineEnd (R E : Type)
  | returned (result : R)
  | raised (e : E)
  | cancelled
  | exceeded (where_ : DeadlineExceeded)
  deriving DecidableEq, Repr

/-- A completed operation is followed by one more look at the deadline. -/
def DeadlineEnd.ofAwait {R E : Type} (deadline : Option ℚ) (endedAt : ℚ) :
    AwaitEnd R E → DeadlineEnd R E
  | .task (.value result) =>
    match remainingDeadlineSeconds deadline endedAt with
    | .error _ => .exceeded .afterCompletion
    | .ok _ => .returned result
  | .task (.error e) => .raised e
  | .task .cancelled | .interrupted => .cancelled
  | .timedOut => .exceeded .whileWaiting

def awaitWithDeadline (R E : Type) (deadline : Option ℚ) :
    AwaitScript (Option ℚ) R E DeadlineExceeded (DeadlineEnd R E) where
  enter := remainingDeadlineSeconds deadline
  timeout := id
  close _ _ endedAt := DeadlineEnd.ofAwait deadline endedAt

variable {R E : Type} {deadline : Option ℚ}

theorem remainingDeadlineSeconds_error {now : ℚ} {e : DeadlineExceeded}
    (h : remainingDeadlineSeconds deadline now = .error e) :
    ∃ d, deadline = some d ∧ d ≤ now ∧ e = .before := by
  cases deadline with
  | none => simp [remainingDeadlineSeconds] at h
  | some d =>
    simp only [remainingDeadlineSeconds] at h
    split at h
    · rename_i hover
      simp at h
      exact ⟨d, rfl, by linarith, h.symm⟩
    · simp at h

theorem remainingDeadlineSeconds_ok {now : ℚ} {seconds : Option ℚ}
    (h : remainingDeadlineSeconds deadline now = .ok seconds) :
    seconds = deadline.map (· - now) ∧ ∀ d, deadline = some d → now < d := by
  cases deadline with
  | none =>
    simp [remainingDeadlineSeconds] at h
    simp [← h]
  | some d =>
    simp only [remainingDeadlineSeconds] at h
    split at h
    · simp at h
    · rename_i hleft
      simp at h
      simp only [not_le] at hleft
      exact ⟨by simp [← h], fun d' hd => by simp at hd; linarith⟩

/-- Why an await within a deadline ended as it did. -/
def DeadlineEnd.Justified (deadline : Option ℚ) (a : TimedAwait R E) (endedAt : ℚ) :
    DeadlineEnd R E → Prop
  | .returned result => a.operation = .done (.value result) ∧ ∀ d, deadline = some d → endedAt < d
  | .raised e => a.operation = .done (.error e)
  | .cancelled => a.operation = .done .cancelled ∨ a.interrupted = true
  | .exceeded _ => ∃ d, deadline = some d ∧ d ≤ endedAt

theorem DeadlineEnd.ofAwait_justified {enteredAt startedAt endedAt : ℚ} {budget : Option ℚ}
    {a : TimedAwait R E} {ending : AwaitEnd R E}
    (h : (awaitWithDeadline R E deadline).Follows budget enteredAt startedAt endedAt a)
    (hended : a.stage = .ended ending) :
    (DeadlineEnd.ofAwait deadline endedAt ending).Justified deadline a endedAt := by
  have hshape := h.shape
  simp only [TimedAwait.Shape, hended] at hshape
  cases ending with
  | task result =>
    cases result with
    | value result =>
      simp only [DeadlineEnd.ofAwait]
      split
      · rename_i hover
        obtain ⟨d, hd, hle, -⟩ := remainingDeadlineSeconds_error hover
        exact ⟨d, hd, hle⟩
      · rename_i hleft
        exact ⟨hshape, (remainingDeadlineSeconds_ok hleft).2⟩
    | error e => exact hshape
    | cancelled => exact .inl hshape
  | timedOut =>
    -- the timer was set to what was left of the deadline when the call was entered
    obtain ⟨-, timeout, htimeout, hexpired⟩ := hshape
    have hbudget := (remainingDeadlineSeconds_ok h.entered).1
    rw [h.timeout] at htimeout
    simp only [awaitWithDeadline, id_eq] at htimeout
    rw [hbudget, Option.map_eq_some_iff] at htimeout
    obtain ⟨d, hd, hleft⟩ := htimeout
    have hstarted := h.started
    exact ⟨d, hd, by linarith⟩
  | interrupted => exact .inr hshape.2

/-- Every await within a deadline, under every order of clock, operation and cancellation: it is
refused only once the deadline has passed, and then nothing was called; when it has ended its
operation has ended too, a result is delivered only before the deadline and is the operation's, and
an error that is not the operation's own is the deadline's, at or after the deadline. -/
theorem deadline_awaits_settle (R E : Type) (deadline : Option ℚ) {now : ℚ}
    {ls : List (ScriptLabel R E)}
    {s : ScriptState (Option ℚ) R E DeadlineExceeded (DeadlineEnd R E)}
    (hrun : Run (awaitWithDeadline R E deadline).step (AwaitScript.new now) ls s) :
    (∀ e refusedAt, s.stage = .refused e refusedAt → ∃ d, deadline = some d ∧ d ≤ refusedAt) ∧
    (∀ budget enteredAt startedAt a result endedAt,
      s.stage = .ended budget enteredAt startedAt a result endedAt →
        a.Stopped ∧ result.Justified deadline a endedAt) ∧
    (∀ budget enteredAt startedAt a, s.stage = .awaiting budget enteredAt startedAt a → a.Stopped →
      ∃ t b result, (awaitWithDeadline R E deadline).step s (.await .wake) = some t ∧
        t.stage = .ended budget enteredAt startedAt b result s.now) := by
  have hsound := AwaitScript.sound_run hrun
  refine ⟨?_, ?_, ?_⟩
  · intro e refusedAt hstage
    simp only [AwaitScript.Sound, hstage] at hsound
    obtain ⟨d, hd, hle, -⟩ := remainingDeadlineSeconds_error hsound.2
    exact ⟨d, hd, hle⟩
  · intro budget enteredAt startedAt a result endedAt hstage
    simp only [AwaitScript.Sound, hstage] at hsound
    obtain ⟨-, hfollows, ending, hended, hresult⟩ := hsound
    subst hresult
    exact ⟨hfollows.shape.stopped hended, DeadlineEnd.ofAwait_justified hfollows hended⟩
  · intro budget enteredAt startedAt a hstage hstopped
    exact hsound.wakes hstage hstopped

/-- An operation that returns at its deadline: the result is thrown away. -/
def returnsTooLate : List (ScriptLabel ℕ Unit) :=
  [.enter, .start, .await .call, .tick 5, .await (.finish (.value 7)), .await .wake]

theorem deadline_awaits_settle_late :
    ∃ (s : ScriptState (Option ℚ) ℕ Unit DeadlineExceeded (DeadlineEnd ℕ Unit))
      (a : TimedAwait ℕ Unit),
      Run (awaitWithDeadline ℕ Unit (some 5)).step (AwaitScript.new 0) returnsTooLate s ∧
      s.stage = .ended (some (5 - 0)) 0 0 a (.exceeded .afterCompletion) 5 ∧ a.Stopped ∧
      ∃ d, some (5 : ℚ) = some d ∧ d ≤ 5 := by
  have hrun : Run (awaitWithDeadline ℕ Unit (some 5)).step (AwaitScript.new 0) returnsTooLate
      ⟨5, .ended (some (5 - 0)) 0 0
        ⟨some (5 - 0), .ended (.task (.value 7)), .done (.value 7), false⟩
        (.exceeded .afterCompletion) 5⟩ := exec_run (by decide +kernel)
  have hsettled := deadline_awaits_settle ℕ Unit (some 5) hrun
  obtain ⟨hstopped, hjustified⟩ := hsettled.2.1 _ _ _ _ _ _ rfl
  exact ⟨_, _, hrun, rfl, hstopped, hjustified⟩

end Coalestra
