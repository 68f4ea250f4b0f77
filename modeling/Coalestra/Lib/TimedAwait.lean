import Coalestra.Lib.Runs
import Mathlib.Algebra.Order.Field.Rat
import Mathlib.Tactic.Linarith

/-! # Awaiting an operation with a timer

A caller awaits an operation that may return, fail or be cancelled at any time. With a timeout the
operation is a task of its own, and a caller that stops waiting, because the timer has fired or
because it is cancelled itself, cancels the task and then waits until the task has ended. An
`AwaitScript` wraps such an await: checks before the call, which may refuse it, and a result made
from how the await ended. -/

namespace Coalestra
set_option autoImplicit false
set_option maxHeartbeats 250000

/-! ## One await -/

/-- How a task ends. -/
inductive TaskEnd (R E : Type)
  | value (result : R)
  | error (e : E)
  | cancelled
  deriving DecidableEq, Repr

inductive Operation (R E : Type)
  | notCalled
  | running
  | done (result : TaskEnd R E)
  deriving DecidableEq, Repr

inductive AwaitEnd (R E : Type)
  | task (result : TaskEnd R E)
  | timedOut
  | interrupted
  deriving DecidableEq, Repr

/-- Where the caller is: `inline` without a timeout, `draining` once the task is cancelled. -/
inductive AwaitStage (R E : Type)
  | calling
  | inline
  | waiting (due : ℚ)
  | draining (timedOut : Bool)
  | ended (result : AwaitEnd R E)
  deriving DecidableEq, Repr

/-- `interrupted` says that the caller has been cancelled. -/
structure TimedAwait (R E : Type) where
  timeout : Option ℚ
  stage : AwaitStage R E
  operation : Operation R E
  interrupted : Bool
  deriving DecidableEq, Repr

inductive AwaitLabel (R E : Type)
  | call
  | refuse (e : E)
  | finish (result : TaskEnd R E)
  | interrupt
  | wake
  deriving DecidableEq, Repr

namespace TimedAwait
variable {R E : Type}

def new (timeout : Option ℚ) : TimedAwait R E := ⟨timeout, .calling, .notCalled, false⟩

/-- One turn at the time `now`. Without a timeout a cancellation reaches the operation, which alone
decides how it ends. A caller that is cancelled while it drains is cancelled once the task ends. -/
def turn (now : ℚ) (a : TimedAwait R E) : AwaitLabel R E → Option (TimedAwait R E)
  | .call =>
    match a.stage, a.timeout with
    | .calling, none => some { a with stage := .inline, operation := .running }
    | .calling, some timeout =>
      some { a with stage := .waiting (now + timeout), operation := .running }
    | _, _ => none
  | .refuse e =>
    match a.stage with
    | .calling => some { a with stage := .ended (.task (.error e)), operation := .done (.error e) }
    | _ => none
  | .finish result =>
    match a.operation, a.stage with
    | .running, .inline => some { a with stage := .ended (.task result), operation := .done result }
    | .running, _ => some { a with operation := .done result }
    | _, _ => none
  | .interrupt =>
    match a.stage with
    | .inline => some { a with interrupted := true }
    | .waiting _ | .draining _ => some { a with stage := .draining false, interrupted := true }
    | _ => none
  | .wake =>
    match a.stage, a.operation with
    | .waiting _, .done result => some { a with stage := .ended (.task result) }
    | .waiting due, .running => if due ≤ now then some { a with stage := .draining true } else none
    | .draining timedOut, .done _ =>
      some { a with stage := .ended (if timedOut then .timedOut else .interrupted) }
    | _, _ => none

/-- The operation was called and has ended. -/
def Stopped (a : TimedAwait R E) : Prop := ∃ result, a.operation = .done result

/-- The timeout, counted from `start`, has passed. -/
def Expired (start now : ℚ) (a : TimedAwait R E) : Prop :=
  ∃ timeout, a.timeout = some timeout ∧ start + timeout ≤ now

/-- What the stage says of the operation, the timer and the caller, when the await began at
`start` or later. -/
def Shape (start now : ℚ) (a : TimedAwait R E) : Prop :=
  match a.stage with
  | .calling => a.operation = .notCalled
  | .inline => a.operation = .running
  | .waiting due => a.operation ≠ .notCalled ∧ a.Expired start due
  | .draining timedOut => a.operation ≠ .notCalled ∧
      if timedOut then a.Expired start now else a.interrupted = true
  | .ended (.task result) => a.operation = .done result
  | .ended .timedOut => a.Stopped ∧ a.Expired start now
  | .ended .interrupted => a.Stopped ∧ a.interrupted = true

variable {a b : TimedAwait R E} {start now : ℚ}

theorem Expired.later (h : a.Expired start now) {later : ℚ} (hnow : now ≤ later) :
    a.Expired start later := by
  obtain ⟨timeout, htimeout, hexpired⟩ := h
  exact ⟨timeout, htimeout, by linarith⟩

theorem Shape.later (h : a.Shape start now) {later : ℚ} (hnow : now ≤ later) :
    a.Shape start later := by
  unfold Shape at h ⊢
  cases hstage : a.stage with
  | calling | inline | waiting due => simpa [hstage] using h
  | draining timedOut =>
    simp only [hstage] at h ⊢
    refine ⟨h.1, ?_⟩
    cases timedOut with
    | true => exact h.2.later hnow
    | false => exact h.2
  | ended result =>
    cases result with
    | task result | interrupted => simpa [hstage] using h
    | timedOut =>
      simp only [hstage] at h ⊢
      exact ⟨h.1, h.2.later hnow⟩

theorem shape_new (timeout : Option ℚ) : (new timeout : TimedAwait R E).Shape start now := by
  simp [Shape, new]

theorem turn_timeout {l : AwaitLabel R E} (h : a.turn now l = some b) : b.timeout = a.timeout := by
  cases l with
  | call | refuse | finish | interrupt =>
    simp only [turn] at h
    split at h
    all_goals simp at h
    all_goals simp [← h]
  | wake =>
    simp only [turn] at h
    split at h
    · simp at h; simp [← h]
    · split at h
      · simp at h; simp [← h]
      · simp at h
    · simp at h; simp [← h]
    · simp at h

theorem Shape.turn {l : AwaitLabel R E} (h : a.Shape start now) (hstart : start ≤ now)
    (ht : a.turn now l = some b) : b.Shape start now := by
  cases l with
  | call =>
    simp only [TimedAwait.turn] at ht
    split at ht
    · simp at ht; simp [← ht, Shape]
    · rename_i timeout _ htimeout
      rw [Option.some.injEq] at ht
      simp only [← ht, Shape]
      exact ⟨by simp, timeout, by simp [htimeout], by linarith⟩
    · simp at ht
  | refuse e =>
    simp only [TimedAwait.turn] at ht
    split at ht
    · simp at ht; simp [← ht, Shape]
    · simp at ht
  | finish result =>
    simp only [TimedAwait.turn] at ht
    split at ht
    · simp at ht; simp [← ht, Shape]
    · -- the task ends on its own: the caller stays where it is
      rename_i hrunning hinline
      rw [Option.some.injEq] at ht
      subst ht
      unfold Shape at h ⊢
      cases hstage : a.stage with
      | calling => simp [hstage, hrunning] at h
      | inline => exact absurd hstage hinline
      | waiting due =>
        simp only [hstage] at h ⊢
        exact ⟨by simp, h.2⟩
      | draining timedOut =>
        simp only [hstage] at h ⊢
        exact ⟨by simp, h.2⟩
      | ended ending =>
        -- an ended call has no running task
        cases ending with
        | task ending => simp [hstage, hrunning] at h
        | timedOut | interrupted => simp [hstage, hrunning, Stopped] at h
    · simp at ht
  | interrupt =>
    simp only [TimedAwait.turn] at ht
    split at ht <;> rename_i hstage
    · rw [Option.some.injEq] at ht
      subst ht
      simpa [Shape, hstage] using h
    · rw [Option.some.injEq] at ht
      subst ht
      simp only [Shape, hstage] at h ⊢
      exact ⟨h.1, by simp⟩
    · rw [Option.some.injEq] at ht
      subst ht
      simp only [Shape, hstage] at h ⊢
      exact ⟨h.1, by simp⟩
    · simp at ht
  | wake =>
    simp only [TimedAwait.turn] at ht
    split at ht
    · rename_i hdone
      rw [Option.some.injEq] at ht
      subst ht
      simpa [Shape] using hdone
    · rename_i due hstage hrunning
      split at ht
      · rename_i hdue
        rw [Option.some.injEq] at ht
        subst ht
        simp only [Shape, hstage] at h ⊢
        exact ⟨h.1, h.2.later hdue⟩
      · simp at ht
    · rename_i timedOut result hstage hdone
      rw [Option.some.injEq] at ht
      subst ht
      simp only [Shape, hstage] at h ⊢
      cases timedOut with
      | true => exact ⟨⟨result, hdone⟩, h.2⟩
      | false => exact ⟨⟨result, hdone⟩, h.2⟩
    · simp at ht

theorem Shape.stopped (h : a.Shape start now) {result : AwaitEnd R E}
    (hended : a.stage = .ended result) : a.Stopped := by
  cases result with
  | task result => exact ⟨result, by simpa [Shape, hended] using h⟩
  | timedOut | interrupted =>
    simp only [Shape, hended] at h
    exact h.1

/-- Once the operation has ended, one turn of a waiting caller ends the await. -/
theorem Shape.wakes (h : a.Shape start now) (hstopped : a.Stopped) :
    (∃ result, a.stage = .ended result) ∨
      ∃ b result, a.turn now .wake = some b ∧ b.stage = .ended result := by
  obtain ⟨result, hdone⟩ := hstopped
  cases hstage : a.stage with
  | calling | inline => simp [Shape, hstage, hdone] at h
  | waiting due =>
    refine .inr ⟨{ a with stage := .ended (.task result) }, .task result, ?_, rfl⟩
    simp [TimedAwait.turn, hstage, hdone]
  | draining timedOut =>
    refine .inr ⟨{ a with stage := .ended (if timedOut then .timedOut else .interrupted) },
      if timedOut then .timedOut else .interrupted, ?_, rfl⟩
    simp [TimedAwait.turn, hstage, hdone]
  | ended ending => exact .inl ⟨ending, rfl⟩

end TimedAwait

/-! ## Awaits with checks around them -/

/-- `enter` refuses or gives a budget, `timeout` is what the budget allows, and `close` makes the
result from the times at which the await began and ended and from how it ended. -/
structure AwaitScript (B R E X Y : Type) where
  enter : ℚ → Except X B
  timeout : B → Option ℚ
  close : B → ℚ → ℚ → AwaitEnd R E → Y

inductive ScriptStage (B R E X Y : Type)
  | entering
  | refused (refusal : X) (refusedAt : ℚ)
  | entered (budget : B) (enteredAt : ℚ)
  | awaiting (budget : B) (enteredAt startedAt : ℚ) (await : TimedAwait R E)
  | ended (budget : B) (enteredAt startedAt : ℚ) (await : TimedAwait R E) (result : Y)
      (endedAt : ℚ)
  deriving DecidableEq, Repr

structure ScriptState (B R E X Y : Type) where
  now : ℚ
  stage : ScriptStage B R E X Y
  deriving DecidableEq, Repr

inductive ScriptLabel (R E : Type)
  | tick (later : ℚ)
  | enter
  | start
  | await (l : AwaitLabel R E)

namespace AwaitScript
variable {B R E X Y : Type} (script : AwaitScript B R E X Y)

def new (now : ℚ) : ScriptState B R E X Y := ⟨now, .entering⟩

/-- The stage after a turn of the await at the time `now`. -/
def onAwait (budget : B) (enteredAt startedAt now : ℚ) (a : TimedAwait R E) :
    ScriptStage B R E X Y :=
  match a.stage with
  | .ended result =>
    .ended budget enteredAt startedAt a (script.close budget startedAt now result) now
  | _ => .awaiting budget enteredAt startedAt a

def step (s : ScriptState B R E X Y) : ScriptLabel R E → Option (ScriptState B R E X Y)
  | .tick later => if s.now ≤ later then some { s with now := later } else none
  | .enter =>
    match s.stage with
    | .entering =>
      match script.enter s.now with
      | .error refusal => some { s with stage := .refused refusal s.now }
      | .ok budget => some { s with stage := .entered budget s.now }
    | _ => none
  | .start =>
    match s.stage with
    | .entered budget enteredAt =>
      some { s with stage := .awaiting budget enteredAt s.now (.new (script.timeout budget)) }
    | _ => none
  | .await l =>
    match s.stage with
    | .awaiting budget enteredAt startedAt a =>
      (a.turn s.now l).map fun b =>
        { s with stage := script.onAwait budget enteredAt startedAt s.now b }
    | _ => none

/-- The await that a budget and two times give: its timeout and its shape. -/
structure Follows (budget : B) (enteredAt startedAt now : ℚ) (a : TimedAwait R E) : Prop where
  entered : script.enter enteredAt = .ok budget
  started : enteredAt ≤ startedAt
  goneBy : startedAt ≤ now
  timeout : a.timeout = script.timeout budget
  shape : a.Shape startedAt now

/-- Each stage was reached as the script says. -/
def Sound (s : ScriptState B R E X Y) : Prop :=
  match s.stage with
  | .entering => True
  | .refused refusal refusedAt => refusedAt ≤ s.now ∧ script.enter refusedAt = .error refusal
  | .entered budget enteredAt => enteredAt ≤ s.now ∧ script.enter enteredAt = .ok budget
  | .awaiting budget enteredAt startedAt a =>
      script.Follows budget enteredAt startedAt s.now a ∧ ∀ result, a.stage ≠ .ended result
  | .ended budget enteredAt startedAt a result endedAt => endedAt ≤ s.now ∧
      script.Follows budget enteredAt startedAt endedAt a ∧
      ∃ ending, a.stage = .ended ending ∧ result = script.close budget startedAt endedAt ending

variable {script} {s t : ScriptState B R E X Y}

theorem Follows.later {budget : B} {enteredAt startedAt now later : ℚ} {a : TimedAwait R E}
    (h : script.Follows budget enteredAt startedAt now a) (hnow : now ≤ later) :
    script.Follows budget enteredAt startedAt later a :=
  ⟨h.entered, h.started, h.goneBy.trans hnow, h.timeout, h.shape.later hnow⟩

theorem Sound.later (h : script.Sound s) {later : ℚ} (hnow : s.now ≤ later) :
    script.Sound { s with now := later } := by
  unfold Sound at h ⊢
  cases hstage : s.stage with
  | entering => trivial
  | refused refusal refusedAt | entered budget enteredAt =>
    simp only [hstage] at h ⊢
    exact ⟨h.1.trans hnow, h.2⟩
  | awaiting budget enteredAt startedAt a =>
    simp only [hstage] at h ⊢
    exact ⟨h.1.later hnow, h.2⟩
  | ended budget enteredAt startedAt a result endedAt =>
    simp only [hstage] at h ⊢
    exact ⟨h.1.trans hnow, h.2⟩

theorem Follows.onAwait {budget : B} {enteredAt startedAt : ℚ} {a : TimedAwait R E}
    (h : script.Follows budget enteredAt startedAt s.now a) :
    script.Sound { s with stage := script.onAwait budget enteredAt startedAt s.now a } := by
  unfold AwaitScript.onAwait
  split
  · rename_i ending hended
    exact ⟨le_rfl, h, ending, hended, rfl⟩
  · rename_i hopen
    exact ⟨h, hopen⟩

theorem Sound.step {l : ScriptLabel R E} (h : script.Sound s) (hs : script.step s l = some t) :
    script.Sound t := by
  cases l with
  | tick later =>
    simp only [AwaitScript.step] at hs
    split at hs
    · rename_i hnow
      rw [Option.some.injEq] at hs
      subst hs
      exact h.later hnow
    · simp at hs
  | enter =>
    simp only [AwaitScript.step] at hs
    split at hs
    · split at hs <;> rename_i henter <;> rw [Option.some.injEq] at hs <;> subst hs
      · exact ⟨le_rfl, henter⟩
      · exact ⟨le_rfl, henter⟩
    · simp at hs
  | start =>
    simp only [AwaitScript.step] at hs
    split at hs
    · rename_i budget enteredAt hstage
      rw [Option.some.injEq] at hs
      subst hs
      simp only [Sound, hstage] at h
      exact ⟨⟨h.2, h.1, le_rfl, rfl, TimedAwait.shape_new _⟩, by simp [TimedAwait.new]⟩
    · simp at hs
  | await l =>
    simp only [AwaitScript.step] at hs
    split at hs
    · rename_i budget enteredAt startedAt a hstage
      rw [Option.map_eq_some_iff] at hs
      obtain ⟨b, hb, ht⟩ := hs
      subst ht
      simp only [Sound, hstage] at h
      exact Follows.onAwait ⟨h.1.entered, h.1.started, h.1.goneBy,
        (TimedAwait.turn_timeout hb).trans h.1.timeout, h.1.shape.turn h.1.goneBy hb⟩
    · simp at hs

/-- Whatever the operation, the clock and the cancellations do, each stage was reached as the
script says. -/
theorem sound_run {now : ℚ} {ls : List (ScriptLabel R E)} (hrun : Run script.step (new now) ls t) :
    script.Sound t :=
  hrun.invariant script.Sound (fun _ _ _ _ h hs => h.step hs) (by simp [Sound, new])

/-- Once its operation has ended, one turn of the caller ends the await. -/
theorem Sound.wakes (h : script.Sound s) {budget : B} {enteredAt startedAt : ℚ}
    {a : TimedAwait R E} (hstage : s.stage = .awaiting budget enteredAt startedAt a)
    (hstopped : a.Stopped) : ∃ t b result, script.step s (.await .wake) = some t ∧
      t.stage = .ended budget enteredAt startedAt b result s.now := by
  simp only [Sound, hstage] at h
  obtain ⟨ending, hended⟩ | ⟨b, ending, hturn, hended⟩ := h.1.shape.wakes hstopped
  · exact absurd hended (h.2 ending)
  · refine ⟨{ s with stage := script.onAwait budget enteredAt startedAt s.now b }, b,
      script.close budget startedAt s.now ending, ?_, ?_⟩
    · simp [AwaitScript.step, hstage, hturn]
    · simp [AwaitScript.onAwait, hended]

end AwaitScript
end Coalestra
