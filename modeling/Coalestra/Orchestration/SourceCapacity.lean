import Mathlib.Algebra.Order.BigOperators.Group.List
import Coalestra.Concurrency.Capacity
import Coalestra.Lib.Runs

/-! # Capacity of source calls

`SourceCalls.acquire_capacity` with `_await_with_timeout`, and the `try`/`finally` of `fetch_once`,
`fetch_many_once` and `derive_once` around the source. With a timeout the acquisition runs in a task
of its own, and the calling task waits for it in `asyncio.wait`; without one it runs in the calling
task. A call whose deadline has passed before it asks for capacity takes no step here. -/

namespace Coalestra
set_option autoImplicit false
set_option maxHeartbeats 250000

open CapacityController

/-- Where the calling task stands: in `asyncio.wait` or in the acquisition, in the `finally` with a
lease, with its source, in `asyncio.gather` after it cancelled the acquisition, or at its end. -/
inductive CallerPosition
  | awaiting
  | observing
  | running
  | reaping
  | ended
  deriving DecidableEq, Repr

/-- A source call. `acquired` are the limiters of its acquisition and of its lease, `releases` those
it released, `stopping` is a cancellation of the acquisition and `cancelling` one of the calling task,
neither delivered yet. -/
structure SourceCall where
  limiters : List LimiterId
  timed : Bool
  acquisition : Acquisition
  acquired : List LimiterId
  releases : List LimiterId
  stopping : Bool
  position : CallerPosition
  cancelling : Bool

def SourceCall.slots (call : SourceCall) : Slots := ⟨call.acquisition, call.acquired, call.releases⟩

/-- The controller, the calls and how many releases raised a `RuntimeError`. -/
structure SourceCapacity where
  controller : CapacityController
  calls : List SourceCall
  runtimeErrors : ℕ

/-- The turns of the event loop. `wake` ends the `asyncio.wait` of a calling task, because the
acquisition ended, the timeout passed or the task was cancelled; `observe` is the metrics call in the
`finally` of `acquire_capacity`. -/
inductive CapacityEvent
  | call (source : String) (timed : Bool)
  | start (i : ℕ)
  | grant (i : ℕ)
  | proceed (i : ℕ)
  | wake (i : ℕ)
  | observe (i : ℕ) (raises : Bool)
  | finish (i : ℕ)
  | reap (i : ℕ)
  | cancel (i : ℕ)

/-- The call a turn belongs to. -/
def CapacityEvent.index : CapacityEvent → Option ℕ
  | .call _ _ => none
  | .start i => some i
  | .grant i => some i
  | .proceed i => some i
  | .wake i => some i
  | .observe i _ => some i
  | .finish i => some i
  | .reap i => some i
  | .cancel i => some i

/-- What a turn of one call leaves: the controller, the call and whether a release raised. -/
abbrev CallTurn := CapacityController × SourceCall × Bool

namespace SourceCall

/-- The acquisition goes on to the next limiters. -/
def acquire (call : SourceCall) (rest : List LimiterId) (c : CapacityController) :
    CapacityController × SourceCall :=
  let (c, acquired, acquisition) := acquireFrom rest call.acquired c
  (c, { call with
    acquisition := acquisition
    acquired := acquired
    position :=
      if acquisition = .done ∧ call.timed = false then .observing else call.position })

/-- Releases everything that was acquired, in reverse order. -/
def releaseAcquired (call : SourceCall) (c : CapacityController) : CallTurn :=
  match releaseAll call.acquired.reverse c with
  | some c => (c, { call with releases := call.releases ++ call.acquired.reverse }, false)
  | none => (c, call, true)

/-- A cancellation reaches `limiter.acquire`, and `CapacityController.acquire` gives everything
back. -/
def stop (call : SourceCall) (id : LimiterId) (granted : Bool) (c : CapacityController) : CallTurn :=
  ({ call with
    acquisition := .stopped
    position := if call.timed then call.position else .ended }).releaseAcquired
    (c.modify (.abandon granted) id)

/-- The next turn of a call. -/
def turn (call : SourceCall) (c : CapacityController) : CapacityEvent → Option CallTurn
  | .start _ =>
    match call.acquisition with
    | .created =>
      if call.stopping then some (c, { call with acquisition := .stopped }, false)
      else
        let (c, call) := call.acquire call.limiters c
        some (c, call, false)
    | _ => none
  | .grant _ =>
    match call.acquisition with
    | .waiting (id :: rest) false =>
      if call.stopping = false ∧ ((c.limiter id).any fun l => decide (0 < l.value)) = true then
        some (c.modify .grant id, { call with acquisition := .waiting (id :: rest) true }, false)
      else none
    | _ => none
  | .proceed _ =>
    match call.acquisition with
    | .waiting (id :: rest) granted =>
      if call.stopping then some (call.stop id granted c)
      else if granted then
        let (c, call) := ({ call with acquired := call.acquired ++ [id] }).acquire rest
          (c.modify .resume id)
        some (c, call, false)
      else none
    | _ => none
  | .wake _ =>
    if call.position = .awaiting ∧ call.timed = true then
      if call.cancelling then
        some (c, { call with stopping := true, position := .reaping, cancelling := false }, false)
      else
        match call.acquisition with
        | .done => some (c, { call with position := .observing }, false)
        | .stopped => some (c, { call with position := .ended }, false)
        | _ => some (c, { call with stopping := true, position := .reaping }, false)
    else none
  | .observe _ raises =>
    if call.position = .observing then
      some (c, { call with position := if raises then .ended else .running }, false)
    else none
  | .finish _ =>
    if call.position = .running then some (({ call with position := .ended }).releaseAcquired c)
    else none
  | .reap _ =>
    if call.position = .reaping ∧
        (call.cancelling = true ∨ call.acquisition = .done ∨ call.acquisition = .stopped) then
      some (c, { call with position := .ended }, false)
    else none
  | .cancel _ =>
    match call.position with
    | .awaiting =>
      if call.timed then some (c, { call with cancelling := true }, false)
      else some (c, { call with stopping := true }, false)
    | .reaping => some (c, { call with cancelling := true }, false)
    | .running => some (c, { call with cancelling := true }, false)
    | _ => none
  | _ => none

end SourceCall

namespace SourceCapacity

def new (c : CapacityController) : SourceCapacity := ⟨c, [], 0⟩

def newCall (c : CapacityController) (source : String) (timed : Bool) : SourceCall :=
  ⟨c.limitersFor source, timed, .created, [], [], false, .awaiting, false⟩

def onCall (s : SourceCapacity) (source : String) (timed : Bool) : SourceCapacity :=
  let call := newCall s.controller source timed
  if timed then { s with calls := s.calls ++ [call] }
  else
    let (c, call) := call.acquire call.limiters s.controller
    { s with controller := c, calls := s.calls ++ [call] }

def onTurn (s : SourceCapacity) (i : ℕ) (r : CallTurn) : SourceCapacity :=
  ⟨r.1, s.calls.set i r.2.1, if r.2.2 then s.runtimeErrors + 1 else s.runtimeErrors⟩

def step (s : SourceCapacity) (e : CapacityEvent) : Option SourceCapacity :=
  match e with
  | .call source timed => some (s.onCall source timed)
  | e =>
    match e.index with
    | none => none
    | some i => (s.calls[i]?).bind fun call => (call.turn s.controller e).map (s.onTurn i)

end SourceCapacity

/-! ## One call -/

namespace SourceCall

/-- A lease that nobody will release. -/
def Lost (call : SourceCall) : Prop :=
  call.acquisition = .done ∧ call.releases = [] ∧
    (call.position = .reaping ∨ call.position = .ended)

/-- A calling task that was cancelled does not find its acquisition finished with a lease when it
resumes, and the metrics sink does not raise once a lease is granted. -/
def Kept (call : SourceCall) : CapacityEvent → Prop
  | .wake _ => ¬ (call.cancelling = true ∧ call.acquisition = .done)
  | .observe _ raises => raises = false
  | _ => True

/-- The acquisition is under way. -/
def Acquiring (call : SourceCall) : Prop := call.acquisition ≠ .done ∧ call.acquisition ≠ .stopped

structure Sound (call : SourceCall) (c : CapacityController) : Prop where
  nodup : call.limiters.Nodup
  globalLimiter : none ∈ call.limiters
  present : ∀ id ∈ call.limiters, c.limiter id ≠ none
  acquisition : match call.acquisition with
    | .created => call.acquired = [] ∧ call.releases = [] ∧ call.timed = true
    | .waiting rest _ => call.acquired ++ rest = call.limiters ∧ rest ≠ [] ∧ call.releases = []
    | .done => call.acquired = call.limiters ∧
        (call.releases = [] ∨ call.releases = call.acquired.reverse)
    | .stopped => call.releases = call.acquired.reverse ∧ call.acquired.Sublist call.limiters
  position : match call.position with
    | .awaiting => call.acquisition ≠ .stopped ∧
        (call.acquisition = .done → call.timed = true ∧ call.releases = []) ∧
        (call.timed = true → call.stopping = false)
    | .observing => call.acquisition = .done ∧ call.releases = []
    | .running => call.acquisition = .done ∧ call.releases = []
    | .reaping => call.timed = true ∧ (call.acquisition = .done → call.releases = []) ∧
        (call.Acquiring → call.stopping = true)
    | .ended => call.Acquiring → call.stopping = true

section
variable {call : SourceCall} {c c' : CapacityController}

theorem Sound.acquired_sublist (h : call.Sound c) : call.acquired.Sublist call.limiters := by
  have hacquisition := h.acquisition
  split at hacquisition
  · rw [hacquisition.1]
    exact List.nil_sublist _
  · rw [← hacquisition.1]
    exact List.sublist_append_left _ _
  · rw [hacquisition.1]
  · exact hacquisition.2

theorem Sound.releases_cases (h : call.Sound c) :
    call.releases = [] ∨ call.releases = call.acquired.reverse := by
  have hacquisition := h.acquisition
  split at hacquisition
  · exact .inl hacquisition.2.1
  · exact .inl hacquisition.2.2
  · exact hacquisition.2
  · exact .inr hacquisition.1

theorem Sound.releases_count (h : call.Sound c) (id : LimiterId) :
    call.releases.count id ≤ call.acquired.count id := by
  rcases h.releases_cases with hreleases | hreleases
  · rw [hreleases]
    exact Nat.zero_le _
  · rw [hreleases, List.count_reverse]

theorem Sound.mono (h : call.Sound c) (hc : ∀ id, c'.limiter id = none ↔ c.limiter id = none) :
    call.Sound c' :=
  ⟨h.nodup, h.globalLimiter, fun id hid hnone => h.present id hid ((hc id).mp hnone),
    h.acquisition, h.position⟩

/-- An acquisition that waits or has not begun waits for the calling task, unless it was
cancelled. -/
theorem Sound.awaiting (h : call.Sound c) (hacquiring : call.Acquiring)
    (hstopping : call.stopping = false) : call.position = .awaiting := by
  have hposition := h.position
  cases hp : call.position with
  | awaiting => rfl
  | observing =>
    rw [hp] at hposition
    exact absurd hposition.1 hacquiring.1
  | running =>
    rw [hp] at hposition
    exact absurd hposition.1 hacquiring.1
  | reaping =>
    rw [hp] at hposition
    rw [hposition.2.2 hacquiring] at hstopping
    cases hstopping
  | ended =>
    rw [hp] at hposition
    rw [hposition hacquiring] at hstopping
    cases hstopping

/-- What the turn of a call has to keep. -/
structure Turns (call : SourceCall) (c : CapacityController) (e : CapacityEvent) (r : CallTurn) :
    Prop where
  sound : r.2.1.Sound r.1
  balanced : Balanced c r.1 call.slots r.2.1.slots
  errorless : r.2.2 = false
  lost : call.Lost → r.2.1.Lost
  leaks : ¬ call.Lost → (r.2.1.Lost ↔ ¬ call.Kept e)

/-- The loop of `CapacityController.acquire` goes on for the awaiting calling task. -/
theorem acquire_turns {call' : SourceCall} {e : CapacityEvent} {rest : List LimiterId}
    (hnodup : call.limiters.Nodup) (hglobal : none ∈ call.limiters)
    (hpresent : ∀ id ∈ call.limiters, c.limiter id ≠ none) (hacquiring : call.Acquiring)
    (hposition : call.position = .awaiting) (hstopping : call.stopping = false)
    (hkept : call.Kept e)
    (hcall' : call' = { call with acquired := call'.acquired })
    (hsplit : call'.acquired ++ rest = call.limiters) (hreleases : call.releases = [])
    (hbalanced : Balanced c c' call.slots ⟨.created, call'.acquired, []⟩) :
    Turns call c e ((call'.acquire rest c').1, (call'.acquire rest c').2, false) := by
  have hgoes := acquireFrom_balanced rest call'.acquired c' [] .created fun _ => rfl
  have hends := acquireFrom_cases rest call'.acquired c'
  have hlimiters : ∀ id ∈ call.limiters, (acquireFrom rest call'.acquired c').1.limiter id ≠ none :=
    fun id hid hnone => hpresent id hid (((hgoes id).1.trans (hbalanced id).1).mp hnone)
  unfold acquire
  generalize acquireFrom rest call'.acquired c' = r at hgoes hends hlimiters ⊢
  obtain ⟨c'', acquired, acquisition⟩ := r
  simp only at hgoes hends hlimiters ⊢
  have hnotLost : ¬ call.Lost := fun hlost => hacquiring.1 hlost.1
  rw [hcall']
  simp only [hposition]
  have hslots : Balanced c c'' call.slots ⟨acquisition, acquired, call.releases⟩ := by
    rw [hreleases]
    exact hbalanced.trans hgoes
  rcases hends with ⟨rfl, rfl⟩ | ⟨pre, id, post, rfl, rfl, hrest⟩
  · cases htimed : call.timed with
    | true =>
      refine ⟨⟨hnodup, hglobal, hlimiters, ⟨hsplit, .inl hreleases⟩, ?_⟩, hslots, rfl,
        fun hlost => absurd hlost hnotLost, fun _ => ⟨?_, fun hbad => absurd hkept hbad⟩⟩
      · exact ⟨by simp, fun _ => ⟨rfl, hreleases⟩, fun _ => hstopping⟩
      · rintro ⟨_, _, hwhere⟩
        simp at hwhere
    | false =>
      refine ⟨⟨hnodup, hglobal, hlimiters, ⟨hsplit, .inl hreleases⟩, ?_⟩, hslots, rfl,
        fun hlost => absurd hlost hnotLost, fun _ => ⟨?_, fun hbad => absurd hkept hbad⟩⟩
      · exact ⟨rfl, hreleases⟩
      · rintro ⟨_, _, hwhere⟩
        simp at hwhere
  · refine ⟨⟨hnodup, hglobal, hlimiters, ⟨?_, by simp, hreleases⟩, ?_⟩, hslots, rfl,
      fun hlost => absurd hlost hnotLost, fun _ => ⟨?_, fun hbad => absurd hkept hbad⟩⟩
    · rw [← hsplit, hrest, List.append_assoc]
    · exact ⟨by simp, by simp, fun _ => hstopping⟩
    · rintro ⟨hdone, _⟩
      cases hdone

/-- The calling task moves on and the slots stay. -/
theorem moves_turns {call' : SourceCall} {e : CapacityEvent}
    (hcall' : call' = { call with
      stopping := call'.stopping, position := call'.position, cancelling := call'.cancelling })
    (hsound : call'.Sound c) (hlost : call.Lost → call'.Lost)
    (hleaks : ¬ call.Lost → (call'.Lost ↔ ¬ call.Kept e)) : Turns call c e (c, call', false) := by
  refine ⟨hsound, ?_, rfl, hlost, hleaks⟩
  rw [hcall']
  exact Balanced.refl c (fun _ => rfl) rfl rfl

/-- Everything that was acquired is in use, so the releases go through. -/
theorem releaseAcquired_spec (call' : SourceCall) {c₁ : CapacityController}
    (h : call.Sound c) (hacquired : call'.acquired = call.acquired) (hreleases : call'.releases = [])
    (hused : ∀ id ∈ call.acquired, ∃ l, c₁.limiter id = some l ∧ 0 < l.inUse)
    (hbalanced : Balanced c c₁ call.slots call'.slots) : ∃ c₂,
    call'.releaseAcquired c₁ =
        (c₂, { call' with releases := call'.acquired.reverse }, false) ∧
      Balanced c c₂ call.slots ⟨call'.acquisition, call'.acquired, call'.acquired.reverse⟩ := by
  have hnodup : call'.acquired.reverse.Nodup := by
    rw [List.nodup_reverse, hacquired]
    exact h.nodup.sublist h.acquired_sublist
  obtain ⟨c₂, hc₂, hreleased⟩ := releaseAll_balanced call'.acquired.reverse c₁ call'.acquired
    call'.releases call'.acquisition hnodup fun id hid => hused id (by
      rw [List.mem_reverse, hacquired] at hid
      exact hid)
  refine ⟨c₂, ?_, ?_⟩
  · rw [releaseAcquired, hc₂, hreleases, List.nil_append]
  · rw [hreleases, List.nil_append] at hreleased
    refine hbalanced.trans ?_
    rw [slots, hreleases]
    exact hreleased

/-- Every turn keeps a call sound, moves its slots without creating any, and loses a lease exactly
when it is not kept. -/
theorem Sound.turn {e : CapacityEvent} {r : CallTurn} (h : call.Sound c)
    (hused : call.releases = [] → ∀ id ∈ call.acquired, ∃ l, c.limiter id = some l ∧ 0 < l.inUse)
    (hr : call.turn c e = some r) : Turns call c e r := by
  have hacq := h.acquisition
  have hpos := h.position
  cases e with
  | call => cases hr
  | start i =>
    simp only [SourceCall.turn] at hr
    split at hr
    · rename_i hcreated
      rw [hcreated] at hacq
      have hacquiring : call.Acquiring := by simp [Acquiring, hcreated]
      have hnotLost : ¬ call.Lost := fun hlost => hacquiring.1 hlost.1
      split at hr
      · rename_i hstopping
        rw [← Option.some.inj hr]
        refine ⟨⟨h.nodup, h.globalLimiter, h.present, ?_, ?_⟩, ?_, rfl,
          fun hlost => absurd hlost hnotLost, fun _ => ⟨?_, fun hbad => absurd trivial hbad⟩⟩
        · exact ⟨by rw [hacq.1, hacq.2.1]; rfl, h.acquired_sublist⟩
        · cases hp : call.position with
          | awaiting =>
            rw [hp] at hpos
            rw [hpos.2.2 hacq.2.2] at hstopping
            cases hstopping
          | observing =>
            rw [hp] at hpos
            exact absurd hpos.1 hacquiring.1
          | running =>
            rw [hp] at hpos
            exact absurd hpos.1 hacquiring.1
          | reaping => exact ⟨hacq.2.2, by simp, fun hstop => absurd rfl hstop.2⟩
          | ended => exact fun hstop => absurd rfl hstop.2
        · exact Balanced.refl c (fun id => by simp [slots, hcreated]) rfl rfl
        · rintro ⟨hdone, _⟩
          cases hdone
      · rename_i hstopping
        rw [← Option.some.inj hr]
        have hstop : call.stopping = false := by simpa using hstopping
        refine acquire_turns h.nodup h.globalLimiter h.present hacquiring
          (h.awaiting hacquiring hstop) hstop trivial rfl ?_ hacq.2.1 ?_
        · rw [hacq.1, List.nil_append]
        · exact Balanced.refl c (fun id => by simp [slots, hcreated]) rfl hacq.2.1.symm
    · cases hr
  | grant i =>
    simp only [SourceCall.turn] at hr
    split at hr
    · rename_i id rest hwaiting
      rw [hwaiting] at hacq
      have hacquiring : call.Acquiring := by simp [Acquiring, hwaiting]
      have hnotLost : ¬ call.Lost := fun hlost => hacquiring.1 hlost.1
      split at hr
      · rename_i hfree
        rw [← Option.some.inj hr]
        have hbalanced : Balanced c (c.modify .grant id) call.slots
            ⟨.waiting (id :: rest) true, call.acquired, call.releases⟩ := by
          refine Balanced.modify (fun l hl => ?_) fun other hother => ?_
          · have hpositive := hfree.2
            rw [hl, Option.any_some, decide_eq_true_eq] at hpositive
            simp [slots, hwaiting, CapacityLimiter.grant]
            omega
          · simp [slots, hwaiting, Ne.symm hother]
        refine ⟨⟨h.nodup, h.globalLimiter, fun id hid hnone => h.present id hid
          ((hbalanced id).1.mp hnone), hacq, ?_⟩, hbalanced, rfl,
          fun hlost => absurd hlost hnotLost, fun _ => ⟨?_, fun hbad => absurd trivial hbad⟩⟩
        · have hposition := h.awaiting hacquiring hfree.1
          simp only [hposition]
          exact ⟨by simp, by simp, fun _ => hfree.1⟩
        · rintro ⟨hdone, _⟩
          cases hdone
      · cases hr
    · cases hr
  | proceed i =>
    simp only [SourceCall.turn] at hr
    split at hr
    · rename_i id rest granted hwaiting
      rw [hwaiting] at hacq
      have hacquiring : call.Acquiring := by simp [Acquiring, hwaiting]
      have hnotLost : ¬ call.Lost := fun hlost => hacquiring.1 hlost.1
      split at hr
      · rename_i hstopping
        rw [← Option.some.inj hr]
        have hnotMem : id ∉ call.acquired := by
          have hnodup := h.nodup
          rw [← hacq.1, List.nodup_append] at hnodup
          exact fun hmem => hnodup.2.2 id hmem id List.mem_cons_self rfl
        have hbalanced : Balanced c (c.modify (.abandon granted) id) call.slots
            ⟨.stopped, call.acquired, call.releases⟩ := by
          refine Balanced.modify (fun l hl => ?_) fun other hother => ?_
          · cases granted with
            | true =>
              simp [slots, hwaiting, CapacityLimiter.abandon]
              omega
            | false => simp [slots, hwaiting, CapacityLimiter.abandon]
          · simp [slots, hwaiting, Ne.symm hother]
        obtain ⟨c₂, hreleased, hreturned⟩ := releaseAcquired_spec
          { call with
            acquisition := .stopped
            position := if call.timed then call.position else .ended }
          h rfl hacq.2.2 (fun other hother => by
            have hne : other ≠ id := fun heq => hnotMem (heq ▸ hother)
            rw [limiter_modify_ne c _ hne]
            exact hused hacq.2.2 other hother) hbalanced
        rw [stop, hreleased]
        refine ⟨⟨h.nodup, h.globalLimiter, fun id hid hnone => h.present id hid
          ((hreturned id).1.mp hnone), ⟨rfl, h.acquired_sublist⟩, ?_⟩, hreturned, rfl,
          fun hlost => absurd hlost hnotLost, fun _ => ⟨?_, fun hbad => absurd trivial hbad⟩⟩
        · cases htimed : call.timed with
          | false => exact fun hstop => absurd rfl hstop.2
          | true =>
            cases hp : call.position with
            | awaiting =>
              rw [hp] at hpos
              rw [hpos.2.2 htimed] at hstopping
              cases hstopping
            | observing =>
              rw [hp] at hpos
              exact absurd hpos.1 hacquiring.1
            | running =>
              rw [hp] at hpos
              exact absurd hpos.1 hacquiring.1
            | reaping => exact ⟨rfl, by simp, fun hstop => absurd rfl hstop.2⟩
            | ended => exact fun hstop => absurd rfl hstop.2
        · rintro ⟨hdone, _⟩
          cases hdone
      · rename_i hstopping
        split at hr
        · rename_i hgranted
          rw [← Option.some.inj hr]
          have hstop : call.stopping = false := by simpa using hstopping
          refine acquire_turns h.nodup h.globalLimiter h.present hacquiring
            (h.awaiting hacquiring hstop) hstop trivial rfl ?_ hacq.2.2 ?_
          · rw [List.append_assoc, List.singleton_append]
            exact hacq.1
          · refine Balanced.modify (fun l hl => ?_) fun other hother => ?_
            · simp [slots, hwaiting, hgranted, hacq.2.2, CapacityLimiter.resume]
              omega
            · simp [slots, hwaiting, hacq.2.2, Ne.symm hother]
        · cases hr
    · cases hr
  | wake i =>
    simp only [SourceCall.turn] at hr
    split at hr
    · rename_i hwaits
      rw [hwaits.1] at hpos
      have hnotLost : ¬ call.Lost := by
        rintro ⟨_, _, hwhere⟩
        rw [hwaits.1] at hwhere
        simp at hwhere
      split at hr
      · rename_i hcancelling
        rw [← Option.some.inj hr]
        refine moves_turns rfl ⟨h.nodup, h.globalLimiter, h.present, hacq, ?_⟩
          (fun hlost => absurd hlost hnotLost) fun _ => ⟨?_, ?_⟩
        · exact ⟨hwaits.2, fun hdone => (hpos.2.1 hdone).2, fun _ => rfl⟩
        · exact fun hlost hkept => hkept ⟨hcancelling, hlost.1⟩
        · intro hbad
          have hdone := (not_not.mp hbad).2
          exact ⟨hdone, (hpos.2.1 hdone).2, .inl rfl⟩
      · rename_i hcancelling
        have hkept : call.Kept (.wake i) := fun hbad => hcancelling hbad.1
        split at hr
        · rename_i hdone
          rw [← Option.some.inj hr]
          refine moves_turns rfl ⟨h.nodup, h.globalLimiter, h.present, hacq, ?_⟩
            (fun hlost => absurd hlost hnotLost) fun _ => ⟨?_, fun hbad => absurd hkept hbad⟩
          · exact ⟨hdone, (hpos.2.1 hdone).2⟩
          · rintro ⟨_, _, hwhere⟩
            simp at hwhere
        · rename_i hstopped
          exact absurd hstopped hpos.1
        · rename_i hnotDone _
          rw [← Option.some.inj hr]
          refine moves_turns rfl ⟨h.nodup, h.globalLimiter, h.present, hacq, ?_⟩
            (fun hlost => absurd hlost hnotLost) fun _ => ⟨?_, fun hbad => absurd hkept hbad⟩
          · exact ⟨hwaits.2, fun hdone => absurd hdone hnotDone, fun _ => rfl⟩
          · exact fun hlost => absurd hlost.1 hnotDone
    · cases hr
  | observe i raises =>
    simp only [SourceCall.turn] at hr
    split at hr
    · rename_i hobserving
      rw [hobserving] at hpos
      rw [← Option.some.inj hr]
      have hnotLost : ¬ call.Lost := by
        rintro ⟨_, _, hwhere⟩
        rw [hobserving] at hwhere
        simp at hwhere
      refine moves_turns rfl ⟨h.nodup, h.globalLimiter, h.present, hacq, ?_⟩
        (fun hlost => absurd hlost hnotLost) fun _ => ?_
      · cases raises with
        | true => exact fun hstop => absurd hpos.1 hstop.1
        | false => exact hpos
      · cases raises with
        | true => exact ⟨fun _ hkept => (by cases hkept), fun _ => ⟨hpos.1, hpos.2, .inr rfl⟩⟩
        | false =>
          refine ⟨fun hlost => ?_, fun hbad => absurd rfl hbad⟩
          have hwhere := hlost.2.2
          simp at hwhere
    · cases hr
  | finish i =>
    simp only [SourceCall.turn] at hr
    split at hr
    · rename_i hrunning
      rw [hrunning] at hpos
      rw [hpos.1] at hacq
      rw [← Option.some.inj hr]
      have hnotLost : ¬ call.Lost := by
        rintro ⟨_, _, hwhere⟩
        rw [hrunning] at hwhere
        simp at hwhere
      obtain ⟨c₂, hreleased, hreturned⟩ := releaseAcquired_spec { call with position := .ended }
        h rfl hpos.2 (hused hpos.2) (Balanced.refl c (fun _ => rfl) rfl rfl)
      rw [hreleased]
      refine ⟨⟨h.nodup, h.globalLimiter, fun id hid hnone => h.present id hid
        ((hreturned id).1.mp hnone), ?_, ?_⟩, hreturned, rfl,
        fun hlost => absurd hlost hnotLost, fun _ => ⟨?_, fun hbad => absurd trivial hbad⟩⟩
      · simp only [hpos.1]
        exact ⟨hacq.1, .inr trivial⟩
      · exact fun hstop => absurd hpos.1 hstop.1
      · rintro ⟨_, hnothing, _⟩
        have hempty : call.acquired = [] := List.reverse_eq_nil_iff.mp hnothing
        have hglobal := h.globalLimiter
        rw [← hacq.1, hempty] at hglobal
        cases hglobal
    · cases hr
  | reap i =>
    simp only [SourceCall.turn] at hr
    split at hr
    · rename_i hreaping
      rw [hreaping.1] at hpos
      rw [← Option.some.inj hr]
      refine moves_turns rfl ⟨h.nodup, h.globalLimiter, h.present, hacq, hpos.2.2⟩
        (fun hlost => ⟨hlost.1, hlost.2.1, .inr rfl⟩) fun hnotLost => ⟨fun hlost => ?_, ?_⟩
      · exact absurd ⟨hlost.1, hlost.2.1, .inl hreaping.1⟩ hnotLost
      · exact fun hbad => absurd trivial hbad
    · cases hr
  | cancel i =>
    have hsame : ∀ {call' : SourceCall}, call'.position = call.position →
        call'.acquisition = call.acquisition → call'.releases = call.releases →
        (call'.Lost ↔ call.Lost) := by
      intro call' hposition hacquisition hreleases
      rw [Lost, Lost, hposition, hacquisition, hreleases]
    simp only [SourceCall.turn] at hr
    split at hr
    · rename_i hawaiting
      rw [hawaiting] at hpos
      split at hr
      · rw [← Option.some.inj hr]
        refine moves_turns rfl ⟨h.nodup, h.globalLimiter, h.present, hacq, ?_⟩
          (hsame rfl rfl rfl).mpr fun hnotLost => ⟨fun hlost => ?_, fun hbad => absurd trivial hbad⟩
        · simp only [hawaiting]
          exact hpos
        · exact absurd ((hsame rfl rfl rfl).mp hlost) hnotLost
      · rename_i htimed
        rw [← Option.some.inj hr]
        refine moves_turns rfl ⟨h.nodup, h.globalLimiter, h.present, hacq, ?_⟩
          (hsame rfl rfl rfl).mpr fun hnotLost => ⟨fun hlost => ?_, fun hbad => absurd trivial hbad⟩
        · simp only [hawaiting]
          exact ⟨hpos.1, hpos.2.1, fun htrue => absurd htrue htimed⟩
        · exact absurd ((hsame rfl rfl rfl).mp hlost) hnotLost
    · rw [← Option.some.inj hr]
      exact moves_turns rfl ⟨h.nodup, h.globalLimiter, h.present, hacq, h.position⟩
        (hsame rfl rfl rfl).mpr fun hnotLost => ⟨fun hlost => absurd ((hsame rfl rfl rfl).mp hlost)
          hnotLost, fun hbad => absurd trivial hbad⟩
    · rw [← Option.some.inj hr]
      exact moves_turns rfl ⟨h.nodup, h.globalLimiter, h.present, hacq, h.position⟩
        (hsame rfl rfl rfl).mpr fun hnotLost => ⟨fun hlost => absurd ((hsame rfl rfl rfl).mp hlost)
          hnotLost, fun hbad => absurd trivial hbad⟩
    · cases hr

end
end SourceCall

/-! ## All calls -/

namespace SourceCapacity

/-- Nobody is outstanding or waiting. -/
def Quiet (s : SourceCapacity) : Prop :=
  ∀ (i : ℕ) call, s.calls[i]? = some call → call.position = .ended ∧
    (call.acquisition = .done ∨ call.acquisition = .stopped)

/-- No turn loses a lease. -/
def Kept (s : SourceCapacity) (e : CapacityEvent) : Prop :=
  ∀ (i : ℕ) call, e.index = some i → s.calls[i]? = some call → call.Kept e

/-- Each slot of a limiter is free, on its way to one call, or held by one. -/
structure Sound (s : SourceCapacity) : Prop where
  calls : ∀ (i : ℕ) call, s.calls[i]? = some call → call.Sound s.controller
  conserved : ∀ id l, s.controller.limiter id = some l →
    l.value + l.inUse + (s.calls.map fun call => call.acquisition.handed id).sum = l.limit ∧
    l.inUse + (s.calls.map fun call => call.releases.count id).sum =
      (s.calls.map fun call => call.acquired.count id).sum
  errorless : s.runtimeErrors = 0

section
variable {s t : SourceCapacity} {e : CapacityEvent}

/-- What an acquisition acquired and did not release is in use. -/
theorem Sound.used (h : Sound s) {i : ℕ} {call : SourceCall} (hi : s.calls[i]? = some call)
    (hreleases : call.releases = []) {id : LimiterId} (hid : id ∈ call.acquired) :
    ∃ l, s.controller.limiter id = some l ∧ 0 < l.inUse := by
  have hcall := h.calls i call hi
  obtain ⟨l, hl⟩ := Option.ne_none_iff_exists'.mp
    (hcall.present id (hcall.acquired_sublist.subset hid))
  refine ⟨l, hl, ?_⟩
  have hlt : (s.calls.map fun call => call.releases.count id).sum <
      (s.calls.map fun call => call.acquired.count id).sum := by
    refine List.sum_lt_sum _ _ (fun other hother => ?_) ⟨call, List.mem_of_getElem? hi, ?_⟩
    · obtain ⟨j, hj⟩ := List.mem_iff_getElem?.mp hother
      exact (h.calls j other hj).releases_count id
    · rw [hreleases, List.count_nil]
      exact List.count_pos_iff.mpr hid
  have hcount := (h.conserved id l hl).2
  omega

theorem sound_turn (h : Sound s) {i : ℕ} {call : SourceCall} {r : CallTurn}
    (hi : s.calls[i]? = some call) (hr : call.Turns s.controller e r) : Sound (s.onTurn i r) where
  calls := by
    intro j other hj
    simp only [onTurn, List.getElem?_set] at hj
    split at hj
    · split at hj
      · rw [← Option.some.inj hj]
        exact hr.sound
      · cases hj
    · exact (h.calls j other hj).mono fun id => (hr.balanced id).1
  conserved := by
    intro id l' hl'
    cases hl : s.controller.limiter id with
    | none =>
      have hnone := (hr.balanced id).1.mpr hl
      rw [show r.1.limiter id = some l' from hl'] at hnone
      cases hnone
    | some l =>
      obtain ⟨hlimit, hvalue, huse⟩ := (hr.balanced id).2 l l' hl hl'
      obtain ⟨hconserved, hheld⟩ := h.conserved id l hl
      have hhanded := sum_map_set (fun call : SourceCall => call.acquisition.handed id) hi
        (b := r.2.1)
      have hreleases := sum_map_set (fun call : SourceCall => call.releases.count id) hi
        (b := r.2.1)
      have hacquired := sum_map_set (fun call : SourceCall => call.acquired.count id) hi
        (b := r.2.1)
      simp only [SourceCall.slots] at hvalue huse
      simp only [onTurn]
      omega
  errorless := by
    simp only [onTurn, hr.errorless, Bool.false_eq_true, if_false]
    exact h.errorless

/-- A new call, with its first turn where it runs in the calling task. -/
theorem onCall_spec (s : SourceCapacity) (source : String) (timed : Bool) : ∃ c call,
    s.onCall source timed = ⟨c, s.calls ++ [call], s.runtimeErrors⟩ ∧ call.Sound c ∧
      ¬ call.Lost ∧ Balanced s.controller c ⟨.created, [], []⟩ call.slots := by
  have hpresent : ∀ id ∈ s.controller.limitersFor source, s.controller.limiter id ≠ none := by
    intro id hid hnone
    obtain ⟨l, hl⟩ := s.controller.limitersFor_present source hid
    rw [hl] at hnone
    cases hnone
  cases timed with
  | true =>
    refine ⟨s.controller, newCall s.controller source true, rfl, ?_, ?_, ?_⟩
    · exact ⟨s.controller.limitersFor_nodup source, s.controller.global_mem_limitersFor source,
        hpresent, ⟨rfl, rfl, rfl⟩, ⟨by simp [newCall], by simp [newCall], fun _ => rfl⟩⟩
    · rintro ⟨hdone, _⟩
      cases hdone
    · exact Balanced.refl _ (fun _ => rfl) rfl rfl
  | false =>
    let call := newCall s.controller source false
    have hturns : call.Turns s.controller (.call source false)
        ((call.acquire call.limiters s.controller).1, (call.acquire call.limiters s.controller).2,
          false) := SourceCall.acquire_turns
      (s.controller.limitersFor_nodup source) (s.controller.global_mem_limitersFor source) hpresent
      (by simp [SourceCall.Acquiring, call, newCall]) rfl rfl trivial rfl rfl rfl
      (Balanced.refl _ (fun _ => rfl) rfl rfl)
    refine ⟨_, _, rfl, hturns.sound, fun hlost => ?_, hturns.balanced⟩
    refine (hturns.leaks fun hbefore => ?_).mp hlost trivial
    cases hbefore.1

theorem step_cases (hs : Sound s) (h : step s e = some t) :
    (∃ c call, t = ⟨c, s.calls ++ [call], s.runtimeErrors⟩ ∧ call.Sound c ∧ ¬ call.Lost ∧
      Balanced s.controller c ⟨.created, [], []⟩ call.slots ∧ e.index = none) ∨
    ∃ (i : ℕ) (call : SourceCall) (r : CallTurn), e.index = some i ∧ s.calls[i]? = some call ∧
      t = s.onTurn i r ∧ call.Turns s.controller e r := by
  have hturn : ∀ i, e.index = some i →
      ((s.calls[i]?).bind fun call => (call.turn s.controller e).map (s.onTurn i)) = some t →
      ∃ (i : ℕ) (call : SourceCall) (r : CallTurn), e.index = some i ∧ s.calls[i]? = some call ∧
        t = s.onTurn i r ∧ call.Turns s.controller e r := by
    intro i hindex h
    obtain ⟨call, hi, h⟩ := Option.bind_eq_some_iff.mp h
    obtain ⟨r, hr, rfl⟩ := Option.map_eq_some_iff.mp h
    exact ⟨i, call, r, hindex, hi, rfl,
      (hs.calls i call hi).turn (fun hreleases id hid => hs.used hi hreleases hid) hr⟩
  cases e with
  | call source timed =>
    left
    obtain ⟨c, call, hnew, hsound, hlost, hbalanced⟩ := onCall_spec s source timed
    refine ⟨c, call, ?_, hsound, hlost, hbalanced, rfl⟩
    rw [← Option.some.inj h, hnew]
  | start i => exact .inr (hturn i rfl h)
  | grant i => exact .inr (hturn i rfl h)
  | proceed i => exact .inr (hturn i rfl h)
  | wake i => exact .inr (hturn i rfl h)
  | observe i raises => exact .inr (hturn i rfl h)
  | finish i => exact .inr (hturn i rfl h)
  | reap i => exact .inr (hturn i rfl h)
  | cancel i => exact .inr (hturn i rfl h)

theorem sound_step (hs : Sound s) (h : step s e = some t) : Sound t := by
  rcases step_cases hs h with ⟨c, call, rfl, hsound, _, hbalanced, _⟩ | ⟨i, call, r, _, hi, rfl, hr⟩
  · refine ⟨fun j other hj => ?_, fun id l' hl' => ?_, hs.errorless⟩
    · simp only [List.getElem?_append] at hj
      split at hj
      · exact (hs.calls j other hj).mono fun id => (hbalanced id).1
      · rw [List.getElem?_singleton] at hj
        split at hj
        · rw [← Option.some.inj hj]
          exact hsound
        · cases hj
    · cases hl : s.controller.limiter id with
      | none =>
        have hnone := (hbalanced id).1.mpr hl
        rw [show c.limiter id = some l' from hl'] at hnone
        cases hnone
      | some l =>
        obtain ⟨hlimit, hvalue, huse⟩ := (hbalanced id).2 l l' hl hl'
        obtain ⟨hconserved, hheld⟩ := hs.conserved id l hl
        simp only [SourceCall.slots, handed_created, List.count_nil] at hvalue huse
        simp only [List.map_append, List.sum_append, List.map_cons, List.map_nil, List.sum_singleton]
        omega
  · exact sound_turn hs hi hr

/-- Some call has lost its lease. -/
def Leaky (s : SourceCapacity) : Prop := ∃ (i : ℕ) (call : SourceCall),
  s.calls[i]? = some call ∧ call.Lost

/-- A lost lease stays lost, and the turns that are not kept lose one. -/
theorem leaky_step (hs : Sound s) (h : step s e = some t) :
    Leaky t ↔ Leaky s ∨ ¬ s.Kept e := by
  rcases step_cases hs h with ⟨c, call, rfl, _, hlost, _, hindex⟩ |
    ⟨i, call, r, hindex, hi, rfl, hr⟩
  · have hkept : s.Kept e := by
      intro i call hi
      rw [hindex] at hi
      cases hi
    constructor
    · rintro ⟨j, other, hj, hother⟩
      simp only [List.getElem?_append] at hj
      split at hj
      · exact .inl ⟨j, other, hj, hother⟩
      · rw [List.getElem?_singleton] at hj
        split at hj
        · rw [Option.some.injEq] at hj
          exact absurd (hj ▸ hother) hlost
        · cases hj
    · rintro (⟨j, other, hj, hother⟩ | hbad)
      · refine ⟨j, other, ?_, hother⟩
        rw [List.getElem?_append_left (List.getElem?_eq_some_iff.mp hj).1, hj]
      · exact absurd hkept hbad
  · have hself : (s.onTurn i r).calls[i]? = some r.2.1 := by
      rw [onTurn, List.getElem?_set_self (List.getElem?_eq_some_iff.mp hi).1]
    have hne : ∀ j, j ≠ i → (s.onTurn i r).calls[j]? = s.calls[j]? := fun j hj => by
      rw [onTurn, List.getElem?_set_ne hj.symm]
    have hkept : s.Kept e ↔ call.Kept e := by
      refine ⟨fun hkept => hkept i call hindex hi, fun hkept j other hj hother => ?_⟩
      rw [hindex, Option.some.injEq] at hj
      rw [← hj, hi, Option.some.injEq] at hother
      rwa [← hother]
    rw [hkept]
    constructor
    · rintro ⟨j, other, hj, hother⟩
      by_cases hji : j = i
      · rw [hji, hself, Option.some.injEq] at hj
        by_cases hbefore : call.Lost
        · exact .inl ⟨i, call, hi, hbefore⟩
        · exact .inr ((hr.leaks hbefore).mp (hj ▸ hother))
      · rw [hne j hji] at hj
        exact .inl ⟨j, other, hj, hother⟩
    · rintro (⟨j, other, hj, hother⟩ | hbad)
      · by_cases hji : j = i
        · rw [hji, hi, Option.some.injEq] at hj
          exact ⟨i, r.2.1, hself, hr.lost (hj ▸ hother)⟩
        · exact ⟨j, other, (hne j hji).trans hj, hother⟩
      · by_cases hbefore : call.Lost
        · exact ⟨i, r.2.1, hself, hr.lost hbefore⟩
        · exact ⟨i, r.2.1, hself, (hr.leaks hbefore).mpr hbad⟩

/-- A run loses a lease exactly when one of its turns is not kept. -/
theorem leaky_run {es : List CapacityEvent} (hrun : Run step s es t) (hs : Sound s) :
    ¬ Leaky t ↔ ¬ Leaky s ∧ RunOf step Kept s es t := by
  induction hrun with
  | nil s => exact ⟨fun h => ⟨h, .nil s⟩, And.left⟩
  | cons _ hstep hrest ih =>
    have hleaky := leaky_step hs hstep
    rw [ih (sound_step hs hstep)]
    constructor
    · rintro ⟨htight, hkept⟩
      rw [hleaky] at htight
      push Not at htight
      exact ⟨htight.1, .cons htight.2 hstep hkept⟩
    · rintro ⟨htight, hkept⟩
      cases hkept with
      | cons hfirst hstep' hkept =>
        rw [hstep, Option.some.injEq] at hstep'
        subst hstep'
        refine ⟨?_, hkept⟩
        rw [hleaky]
        rintro (hbefore | hbad)
        · exact htight hbefore
        · exact hbad hfirst

theorem sound_new (globalLimit : ℕ) (sourceLimits : Dict String ℕ) :
    Sound (new (.new globalLimit sourceLimits)) := by
  refine ⟨fun i call h => by simp [new] at h, fun id l hl => ?_, rfl⟩
  have hl' : ∃ limit, l = .new limit := by
    cases id with
    | none => exact ⟨globalLimit, (Option.some.inj hl).symm⟩
    | some source =>
      simp only [new, CapacityController.new, CapacityController.limiter,
        Dict.get?_comprehend] at hl
      split at hl
      · obtain ⟨limit, _, hlimit⟩ := Option.map_eq_some_iff.mp hl
        exact ⟨limit, hlimit.symm⟩
      · cases hl
  obtain ⟨limit, rfl⟩ := hl'
  simp [new, CapacityLimiter.new]

/-- Nothing is in use at rest exactly when no lease was lost. -/
theorem quiet_iff (hs : Sound s) (hquiet : Quiet s) :
    ((∀ id l, s.controller.limiter id = some l → l.inUse = 0) ∧
      ∀ (i : ℕ) call, s.calls[i]? = some call → call.releases.Perm call.acquired) ↔ ¬ Leaky s := by
  constructor
  · rintro ⟨hnone, _⟩ ⟨i, call, hi, hdone, hreleases, _⟩
    have hcall := hs.calls i call hi
    have hacquired := hcall.acquisition
    rw [hdone] at hacquired
    obtain ⟨l, hl, hpos⟩ := hs.used hi hreleases (hacquired.1 ▸ hcall.globalLimiter)
    have hzero := hnone none l hl
    omega
  · intro htight
    have hreleased : ∀ (i : ℕ) call, s.calls[i]? = some call →
        call.releases = call.acquired.reverse := by
      intro i call hi
      have hcall := hs.calls i call hi
      obtain ⟨hended, hdone | hstopped⟩ := hquiet i call hi
      · rcases hcall.releases_cases with hreleases | hreleases
        · exact absurd ⟨i, call, hi, hdone, hreleases, .inr hended⟩ htight
        · exact hreleases
      · have hacquired := hcall.acquisition
        rw [hstopped] at hacquired
        exact hacquired.1
    refine ⟨fun id l hl => ?_, fun i call hi => ?_⟩
    · have hcounts : (s.calls.map fun call => call.releases.count id) =
          s.calls.map fun call => call.acquired.count id := by
        refine List.map_congr_left fun call hcall => ?_
        obtain ⟨i, hi⟩ := List.mem_iff_getElem?.mp hcall
        rw [hreleased i call hi, List.count_reverse]
      have hheld := (hs.conserved id l hl).2
      rw [hcounts] at hheld
      omega
    · rw [hreleased i call hi]
      exact List.reverse_perm _

end

/-- At every moment each limiter has at most its limit in use, no release lacks its acquire and no
slot is released twice; and at rest nothing is in use and every slot was released exactly when every
turn of the run was kept. -/
theorem capacity_conserved {globalLimit : ℕ} {sourceLimits : Dict String ℕ}
    {es : List CapacityEvent} {s : SourceCapacity}
    (hrun : Run step (new (.new globalLimit sourceLimits)) es s) :
    (∀ id l, s.controller.limiter id = some l → l.inUse ≤ l.limit) ∧ s.runtimeErrors = 0 ∧
    (∀ (i : ℕ) call, s.calls[i]? = some call → call.releases.Nodup ∧
      call.releases ⊆ call.acquired) ∧
    (Quiet s → (((∀ id l, s.controller.limiter id = some l → l.inUse = 0) ∧
        ∀ (i : ℕ) call, s.calls[i]? = some call → call.releases.Perm call.acquired) ↔
      RunOf step Kept (new (.new globalLimit sourceLimits)) es s)) := by
  have hnew := sound_new globalLimit sourceLimits
  have hs := hrun.invariant Sound (fun _ _ _ _ hs h => sound_step hs h) hnew
  refine ⟨fun id l hl => ?_, hs.errorless, fun i call hi => ?_, fun hquiet => ?_⟩
  · have hconserved := (hs.conserved id l hl).1
    omega
  · have hcall := hs.calls i call hi
    have hnodup := hcall.nodup.sublist hcall.acquired_sublist
    rcases hcall.releases_cases with hreleases | hreleases
    · rw [hreleases]
      exact ⟨List.nodup_nil, List.nil_subset _⟩
    · rw [hreleases]
      exact ⟨List.nodup_reverse.mpr hnodup, (List.reverse_perm _).subset⟩
  · rw [quiet_iff hs hquiet, leaky_run hrun hnew]
    refine ⟨And.right, fun hkept => ⟨?_, hkept⟩⟩
    rintro ⟨i, call, hi, _⟩
    simp [new] at hi

/-! ## A cancellation in the turn of the grant -/

/-- Call 1 waits for the only global slot, times out, and call 0 releases it. -/
def timesOut : List CapacityEvent :=
  [.call "rest" true, .start 0, .wake 0, .observe 0 false, .call "rest" true, .start 1, .wake 1,
    .proceed 1, .reap 1, .finish 0]

/-- `Kept` as a function. -/
def keeps (s : SourceCapacity) : CapacityEvent → Bool
  | .wake i => (s.calls[i]?).all fun call =>
      !(call.cancelling && decide (call.acquisition = .done))
  | .observe _ raises => !raises
  | _ => true

theorem kept_of_keeps {s : SourceCapacity} {e : CapacityEvent} (h : keeps s e = true) :
    s.Kept e := by
  intro i call hindex hi
  cases e with
  | wake j =>
    rw [CapacityEvent.index, Option.some.injEq] at hindex
    rw [keeps, hindex, hi, Option.all_some] at h
    rintro ⟨hcancelling, hdone⟩
    rw [hcancelling, hdone] at h
    cases h
  | observe j raises =>
    cases raises with
    | true => cases h
    | false => rfl
  | call => trivial
  | start => trivial
  | grant => trivial
  | proceed => trivial
  | finish => trivial
  | reap => trivial
  | cancel => trivial

/-- The end of a run in numbers. -/
def atRest (s : SourceCapacity) : List (CallerPosition × Acquisition) × ℕ :=
  (s.calls.map fun call => (call.position, call.acquisition), s.controller.globalLimiter.inUse)

theorem quiet_of_atRest {s : SourceCapacity} {n : ℕ} {ends : List (CallerPosition × Acquisition)}
    (h : s.atRest = (ends, n)) (hends : ∀ p ∈ ends, p.1 = .ended ∧ (p.2 = .done ∨ p.2 = .stopped)) :
    Quiet s := by
  intro i call hi
  rw [atRest, Prod.mk.injEq] at h
  refine hends (call.position, call.acquisition) ?_
  rw [← h.1]
  exact List.mem_map_of_mem (List.mem_of_getElem? hi)

theorem capacity_conserved_timesOut : ∃ s : SourceCapacity, s.calls.length = 2 ∧ Quiet s ∧
    ∀ id l, s.controller.limiter id = some l → l.inUse = 0 := by
  have hend : (execOf step keeps (new (.new 1 (Dict.empty.set "rest" 2))) timesOut).map atRest =
      some ([(.ended, .done), (.ended, .stopped)], 0) := by decide +kernel
  obtain ⟨s, hs, hrest⟩ := Option.map_eq_some_iff.mp hend
  have hkept := (execOf_run hs).mono fun _ _ h => kept_of_keeps h
  have hquiet := quiet_of_atRest hrest (by simp)
  have hlength := congrArg (fun p : List (CallerPosition × Acquisition) × ℕ => p.1.length) hrest
  rw [atRest, List.length_map] at hlength
  exact ⟨s, hlength, hquiet, (((capacity_conserved (hkept.mono fun _ _ _ => trivial)).2.2.2
    hquiet).mpr hkept).1⟩

/-- The acquisition ends with its lease, and then the calling task is cancelled before it resumes. -/
theorem lease_lost :
    ¬ ∀ (globalLimit : ℕ) (sourceLimits : Dict String ℕ) (es : List CapacityEvent)
      (s : SourceCapacity), Run step (new (.new globalLimit sourceLimits)) es s → Quiet s →
        ∀ id l, s.controller.limiter id = some l → l.inUse = 0 := by
  intro h
  have hend : (exec step (new (.new 1 .empty))
      [.call "rest" true, .start 0, .cancel 0, .wake 0, .reap 0]).map atRest =
      some ([(.ended, .done)], 1) := by decide +kernel
  obtain ⟨s, hs, hrest⟩ := Option.map_eq_some_iff.mp hend
  have hzero := h 1 .empty _ s (exec_run hs) (quiet_of_atRest hrest (by simp)) none _ rfl
  rw [atRest, Prod.mk.injEq] at hrest
  rw [hzero] at hrest
  cases hrest.2

end SourceCapacity
end Coalestra
