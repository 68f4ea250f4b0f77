import Mathlib.Algebra.Order.BigOperators.Group.List
import Mathlib.Algebra.Order.Group.Nat
import Coalestra.Core.Isolation
import Coalestra.Lib.Runs

/-! # Slots of payload copies

What every run of an `AsyncPayloadIsolator` keeps, whatever times out, fails or is cancelled and
whenever it closes. The books (`Accounts`) and the closed mark (`Drained`) are kept step by step. -/

namespace Coalestra
set_option autoImplicit false
set_option maxHeartbeats 250000

/-! ## What holds in every state -/

/-- The slots of a call: handed to its acquisition, acquired and not yet passed on, or with its
worker. -/
def CopyCall.slots (call : CopyCall) : ℕ :=
  (if call.acquire = .granted then 1 else 0) +
    (if call.acquire = .acquired ∧ call.position = .acquiring then 1 else 0) +
    (if call.active then 1 else 0)

/-- The copy of the call is in its thread, or on the way there. -/
def CopyCall.copies (call : CopyCall) : Bool := call.worker.any fun w => !w.thread.ended

structure CopyCall.Sound (call : CopyCall) : Prop where
  stopping : call.stopping = true → call.acquire ≠ .acquired
  acquiring : call.position = .acquiring → call.worker = none
  reaping : ∀ timedOut, call.position = .reaping timedOut →
    call.worker = none ∧ call.stopping = true
  ended : call.position = .copying ∨ call.position = .ended → call.acquire.done = true
  worker : ∀ w, call.worker = some w → call.acquire = .acquired ∧
    (w.released = true → w.task.done = true) ∧ (w.task.done = true → w.thread.ended = true) ∧
    (w.stopping = true → w.thread.ended = true)

theorem CopyCall.slots_setAcquire (call : CopyCall) (acquire : AcquireTask) :
    ({ call with acquire := acquire } : CopyCall).slots =
      (if acquire = .granted then 1 else 0) +
        (if acquire = .acquired ∧ call.position = .acquiring then 1 else 0) +
        (if call.active then 1 else 0) := rfl

theorem CopyCall.slots_setWorker (call : CopyCall) (worker : Option CopyWorker) :
    ({ call with worker := worker } : CopyCall).slots + (if call.active then 1 else 0) =
      call.slots + if ({ call with worker := worker } : CopyCall).active then 1 else 0 := by
  rw [CopyCall.slots, CopyCall.slots]
  dsimp only
  omega

theorem CopyCall.slots_congr {call call' : CopyCall} (hacquire : call'.acquire = call.acquire)
    (hactive : call'.active = call.active)
    (hplace : call.acquire = .acquired →
      (call'.position = .acquiring ↔ call.position = .acquiring)) :
    call'.slots = call.slots := by
  have hsame : (call.acquire = .acquired ∧ call'.position = .acquiring) =
      (call.acquire = .acquired ∧ call.position = .acquiring) :=
    propext (and_congr_right hplace)
  simp only [CopyCall.slots, hacquire, hactive, hsame]

section
variable {call : CopyCall}

theorem CopyCall.Sound.position_of_open (h : call.Sound) (hacquire : call.acquire.done = false)
    (hstopping : call.stopping = false) : call.position = .acquiring := by
  cases hposition : call.position with
  | acquiring => rfl
  | reaping timedOut =>
    have hstop := (h.reaping timedOut hposition).2
    rw [hstopping] at hstop
    cases hstop
  | copying =>
    have hdone := h.ended (.inl hposition)
    rw [hacquire] at hdone
    cases hdone
  | ended =>
    have hdone := h.ended (.inr hposition)
    rw [hacquire] at hdone
    cases hdone

/-- The acquisition takes its next step. -/
theorem CopyCall.Sound.setAcquire (h : call.Sound) (hopen : call.acquire.done = false)
    {acquire : AcquireTask} (hacquired : acquire = .acquired → call.stopping = false) :
    ({ call with acquire := acquire } : CopyCall).Sound := by
  have hended : ¬(call.position = .copying ∨ call.position = .ended) := by
    intro hposition
    rw [h.ended hposition] at hopen
    cases hopen
  refine ⟨?_, h.acquiring, h.reaping, fun hposition => absurd hposition hended, ?_⟩
  · intro hstop heq
    rw [hacquired heq] at hstop
    cases hstop
  · intro w hw
    rw [(h.worker w hw).1] at hopen
    cases hopen

/-- The call is over: its acquisition has ended and the caller keeps no slot. -/
theorem CopyCall.Sound.finish (h : call.Sound) (hdone : call.acquire.done = true) :
    ({ call with position := .ended, cancelling := false } : CopyCall).Sound := by
  refine ⟨h.stopping, ?_, ?_, fun _ => hdone, h.worker⟩
  · intro hposition
    cases hposition
  · intro timedOut hposition
    cases hposition

/-- The worker takes its next step. -/
theorem CopyCall.Sound.setWorker (h : call.Sound) {w w' : CopyWorker} (hw : call.worker = some w)
    (hreleased : w'.released = true → w'.task.done = true)
    (hdone : w'.task.done = true → w'.thread.ended = true)
    (hstopping : w'.stopping = true → w'.thread.ended = true) :
    ({ call with worker := some w' } : CopyCall).Sound := by
  refine ⟨h.stopping, fun hposition => ?_, fun timedOut hposition => ?_, h.ended, ?_⟩
  · rw [h.acquiring hposition] at hw
    cases hw
  · rw [(h.reaping timedOut hposition).1] at hw
    cases hw
  · rintro _ ⟨⟩
    exact ⟨(h.worker w hw).1, hreleased, hdone, hstopping⟩

theorem CopyCall.rejectWaiting_same (call : CopyCall) : call.rejectWaiting.slots = call.slots ∧
    call.rejectWaiting.active = call.active ∧ call.rejectWaiting.waits = call.waits := by
  rw [rejectWaiting]
  split <;> exact ⟨rfl, rfl, rfl⟩

theorem CopyCall.Sound.rejectWaiting (h : call.Sound) : call.rejectWaiting.Sound := by
  rw [CopyCall.rejectWaiting]
  split
  · rename_i hopen
    rw [Bool.and_eq_true, Bool.not_eq_true'] at hopen
    refine ⟨fun _ hacquire => ?_, h.acquiring, fun timedOut hp => ⟨(h.reaping timedOut hp).1, rfl⟩,
      h.ended, h.worker⟩
    have hdone := hopen.2
    rw [hacquire] at hdone
    cases hdone
  · exact h

theorem CopyCall.stopWorker_same (call : CopyCall) : call.stopWorker.slots = call.slots ∧
    call.stopWorker.active = call.active ∧ call.stopWorker.waits = call.waits := by
  have hactive : call.stopWorker.active = call.active := by
    rw [stopWorker, active, active, Option.any_map]
    congr 1
    funext w
    change (!(if w.task.done then w else { w with stopping := true }).released) = !w.released
    split <;> rfl
  exact ⟨CopyCall.slots_congr rfl hactive fun _ => Iff.rfl, hactive, rfl⟩

theorem CopyCall.Sound.stopWorker (h : call.Sound)
    (hended : ∀ w, call.worker = some w → w.task.done = false → w.thread.ended = true) :
    call.stopWorker.Sound := by
  cases hw : call.worker with
  | none =>
    have hsame : call.stopWorker = call := by
      rw [CopyCall.stopWorker, hw, Option.map_none, ← hw]
    rw [hsame]
    exact h
  | some w =>
    rw [CopyCall.stopWorker, hw, Option.map_some]
    obtain ⟨-, hreleased, hdone, hstopping⟩ := h.worker w hw
    cases htask : w.task.done with
    | true =>
      rw [if_pos rfl]
      exact h.setWorker hw hreleased hdone hstopping
    | false =>
      rw [if_neg Bool.false_ne_true]
      exact h.setWorker hw hreleased hdone fun _ => hended w hw htask

/-- A copy in its thread holds one slot. -/
theorem CopyCall.Sound.slots_of_copies (h : call.Sound) (hcopies : call.copies = true) :
    call.active = true ∧ call.slots = 1 := by
  rw [CopyCall.copies, Option.any_eq_true] at hcopies
  obtain ⟨w, hw, hrunning⟩ := hcopies
  rw [Bool.not_eq_true'] at hrunning
  obtain ⟨hacquire, hreleased, hdone, -⟩ := h.worker w hw
  have hheld : w.released = false := by
    by_contra hrel
    rw [Bool.not_eq_false] at hrel
    rw [hdone (hreleased hrel)] at hrunning
    cases hrunning
  have hactive : call.active = true := by
    rw [CopyCall.active, hw, Option.any_some, hheld]
    rfl
  have hplace : call.position ≠ .acquiring := by
    intro hposition
    rw [h.acquiring hposition] at hw
    cases hw
  refine ⟨hactive, ?_⟩
  simp [CopyCall.slots, hacquire, hplace, hactive]

theorem CopyCall.Sound.slots_of_over (h : call.Sound) (hover : call.position = .ended)
    (hactive : call.active = false) : call.slots = 0 := by
  have hdone := h.ended (.inr hover)
  have hgranted : call.acquire ≠ .granted := by
    intro hacquire
    rw [hacquire] at hdone
    cases hdone
  simp [CopyCall.slots, hgranted, hover, hactive]

end

namespace AsyncPayloadIsolator

def total (r : AsyncPayloadIsolator) (f : CopyCall → ℕ) : ℕ := (r.calls.map f).sum

/-- Slots, copies and waiting calls are all accounted for. -/
structure Accounts (r : AsyncPayloadIsolator) : Prop where
  calls : ∀ call ∈ r.calls, call.Sound
  slots : r.value + r.total CopyCall.slots = r.maxConcurrency
  active : r.tracker.activeCopies = r.total fun call => if call.active then 1 else 0
  waiting : r.tracker.waitingForCapacity = r.total fun call => if call.waits then 1 else 0
  balance : r.tracker.startedCount =
    r.tracker.activeCopies + r.tracker.completedCount + r.tracker.failureCount
  errors : r.trackerErrors = 0

/-- The runner is closed as soon as it closes and has no worker. -/
structure Drained (r : AsyncPayloadIsolator) : Prop where
  closing : r.closed = true → r.closing = true
  closed : r.closing = true → (r.closed = true ↔ ∀ call ∈ r.calls, call.active = false)

structure Sound (r : AsyncPayloadIsolator) : Prop where
  accounts : r.Accounts
  drained : r.Drained

section
variable {r t : AsyncPayloadIsolator} {i : ℕ} {call call' : CopyCall} {w w' : CopyWorker}

theorem le_total {f : CopyCall → ℕ} (hmem : call ∈ r.calls) : f call ≤ r.total f :=
  List.single_le_sum (fun _ _ => Nat.zero_le _) _ (List.mem_map_of_mem hmem)

theorem total_set (hi : r.calls[i]? = some call) (hcalls : t.calls = r.calls.set i call')
    (f : CopyCall → ℕ) : t.total f + f call = r.total f + f call' := by
  rw [total, hcalls]
  exact sum_map_set f hi

theorem mem_set (hcalls : t.calls = r.calls.set i call') {c : CopyCall} (hc : c ∈ t.calls) :
    c ∈ r.calls ∨ c = call' := by
  rw [hcalls] at hc
  exact List.mem_or_eq_of_mem_set hc

/-- One call moves and the books move with it. -/
theorem Accounts.change (h : r.Accounts) (hi : r.calls[i]? = some call) (hcall : call'.Sound)
    (hcalls : t.calls = r.calls.set i call') (hmax : t.maxConcurrency = r.maxConcurrency)
    (hslots : t.value + call'.slots = r.value + call.slots)
    (hactive : t.tracker.activeCopies + (if call.active then 1 else 0) =
      r.tracker.activeCopies + if call'.active then 1 else 0)
    (hwaiting : t.tracker.waitingForCapacity + (if call.waits then 1 else 0) =
      r.tracker.waitingForCapacity + if call'.waits then 1 else 0)
    (hbalance : t.tracker.startedCount =
      t.tracker.activeCopies + t.tracker.completedCount + t.tracker.failureCount)
    (herrors : t.trackerErrors = r.trackerErrors) : t.Accounts := by
  obtain ⟨hs, hv, ha, hw, -, he⟩ := h
  have htotal := total_set hi hcalls
  refine ⟨fun c hc => ?_, ?_, ?_, ?_, hbalance, herrors.trans he⟩
  · rcases mem_set hcalls hc with hc | rfl
    · exact hs c hc
    · exact hcall
  · have := htotal CopyCall.slots
    omega
  · have := htotal fun call => if call.active then 1 else 0
    omega
  · have := htotal fun call => if call.waits then 1 else 0
    omega

/-- One call moves and keeps its worker. -/
theorem Drained.change (h : r.Drained) (hi : r.calls[i]? = some call)
    (hcalls : t.calls = r.calls.set i call') (hclosing : t.closing = r.closing)
    (hclosed : t.closed = r.closed) (hactive : call'.active = call.active ∨ r.closing = false) :
    t.Drained := by
  refine ⟨by rw [hclosing, hclosed]; exact h.closing, fun hc => ?_⟩
  rw [hclosing] at hc
  rw [hclosed, h.closed hc]
  rcases hactive with hactive | hopen
  · constructor
    · intro hall c hmem
      rcases mem_set hcalls hmem with hmem | rfl
      · exact hall c hmem
      · rw [hactive]
        exact hall call (List.mem_of_getElem? hi)
    · intro hall c hmem
      obtain ⟨j, hj⟩ := List.getElem?_of_mem hmem
      by_cases hij : i = j
      · subst hij
        rw [hi, Option.some.injEq] at hj
        rw [← hj, ← hactive]
        refine hall call' ?_
        rw [hcalls]
        exact List.mem_set (List.getElem?_eq_some_iff.mp hi).1 _
      · refine hall c ?_
        rw [hcalls]
        refine List.mem_of_getElem? (i := j) ?_
        rw [List.getElem?_set_ne hij, hj]
  · rw [hopen] at hc
    cases hc

theorem workers_eq_nil : r.workers = [] ↔ ∀ call ∈ r.calls, call.active = false := by
  rw [workers, List.filter_eq_nil_iff]
  constructor
  · intro h call hmem
    obtain ⟨j, hj⟩ := List.getElem?_of_mem hmem
    have hnot := h j (List.mem_range.mpr (List.getElem?_eq_some_iff.mp hj).1)
    rw [hj, Option.any_some] at hnot
    exact Bool.eq_false_iff.mpr hnot
  · intro h j hj
    rw [List.mem_range] at hj
    rw [List.getElem?_eq_getElem hj, Option.any_some, h _ (List.getElem_mem hj)]
    exact Bool.false_ne_true

/-- One call moves, with the tracker's counters as they are. -/
theorem Sound.move (h : r.Sound) (hi : r.calls[i]? = some call) (hcall : call'.Sound)
    (hslots : t.value + call'.slots = r.value + call.slots)
    (hcalls : t.calls = r.calls.set i call') (hmax : t.maxConcurrency = r.maxConcurrency)
    (htracker : t.tracker = r.tracker) (herrors : t.trackerErrors = r.trackerErrors)
    (hclosing : t.closing = r.closing) (hclosed : t.closed = r.closed)
    (hactive : call'.active = call.active) (hwaits : call'.waits = call.waits) : t.Sound := by
  refine ⟨h.accounts.change hi hcall hcalls hmax hslots ?_ ?_ ?_ herrors,
    h.drained.change hi hcalls hclosing hclosed (.inl hactive)⟩
  · rw [htracker, hactive]
  · rw [htracker, hwaits]
  · rw [htracker]
    exact h.accounts.balance

/-- The semaphore answers an acquisition. -/
theorem Sound.setAcquire (h : r.Sound) (hi : r.calls[i]? = some call)
    (hopen : call.acquire.done = false) (acquire : AcquireTask) (value : ℕ)
    (hacquired : acquire = .acquired → call.stopping = false)
    (hvalue : value + (if acquire = .granted ∨ acquire = .acquired then 1 else 0) =
      r.value + if call.acquire = .granted then 1 else 0) :
    ({ r.setCall i { call with acquire := acquire } with value := value }).Sound := by
  have hs := h.accounts.calls call (List.mem_of_getElem? hi)
  refine h.move hi (hs.setAcquire hopen hacquired) ?_ rfl rfl rfl rfl rfl rfl rfl rfl
  have hnot : ¬(call.acquire = .acquired ∧ call.position = .acquiring) := by
    rintro ⟨heq, -⟩
    rw [heq] at hopen
    cases hopen
  have hposition : acquire = .acquired → call.position = .acquiring := fun heq =>
    hs.position_of_open hopen (hacquired heq)
  have hslot : (if acquire = .granted then 1 else 0) +
      (if acquire = .acquired ∧ call.position = .acquiring then 1 else 0) =
      if acquire = .granted ∨ acquire = .acquired then 1 else 0 := by
    by_cases heq : acquire = .acquired
    · simp [heq, hposition heq]
    · simp [heq]
  rw [CopyCall.slots_setAcquire, CopyCall.slots, if_neg hnot, hslot]
  dsimp only
  omega

theorem acquireTurn_sound (h : r.Sound) (hi : r.calls[i]? = some call)
    (ht : r.acquireTurn i call = some t) : t.Sound := by
  have hvalue : r.locked = false → 0 < r.value := by
    intro hlocked
    rw [locked, Bool.or_eq_false_iff, beq_eq_false_iff_ne] at hlocked
    exact Nat.pos_of_ne_zero hlocked.1
  rw [acquireTurn] at ht
  split at ht
  · rename_i hacquire
    have hopen : call.acquire.done = false := by rw [hacquire]; rfl
    split at ht
    · obtain rfl := Option.some.inj ht
      exact h.setAcquire hi hopen _ r.value (by simp) (by simp [hacquire])
    · rename_i hstop
      split at ht
      · obtain rfl := Option.some.inj ht
        exact h.setAcquire hi hopen _ r.value (by simp) (by simp [hacquire])
      · rename_i hlocked
        obtain rfl := Option.some.inj ht
        have hpos := hvalue (by simpa using hlocked)
        refine h.setAcquire hi hopen _ _ (fun _ => by simpa using hstop) ?_
        simp only [hacquire, reduceCtorEq, or_true, if_true, if_false]
        omega
  · rename_i hacquire
    have hopen : call.acquire.done = false := by rw [hacquire]; rfl
    split at ht
    · obtain rfl := Option.some.inj ht
      exact h.setAcquire hi hopen _ r.value (by simp) (by simp [hacquire])
    · cases ht
  · rename_i hacquire
    have hopen : call.acquire.done = false := by rw [hacquire]; rfl
    split at ht
    · obtain rfl := Option.some.inj ht
      exact h.setAcquire hi hopen _ (r.value + 1) (by simp) (by simp [hacquire])
    · rename_i hstop
      obtain rfl := Option.some.inj ht
      refine h.setAcquire hi hopen _ r.value (fun _ => by simpa using hstop) ?_
      simp [hacquire]
  · cases ht
theorem Accounts.waiting_pos (h : r.Accounts) (hmem : call ∈ r.calls) (hwaits : call.waits = true) :
    0 < r.tracker.waitingForCapacity := by
  have hle := @le_total r call (fun call => if call.waits then 1 else 0) hmem
  rw [h.waiting]
  rw [if_pos hwaits] at hle
  exact hle

theorem Accounts.active_pos (h : r.Accounts) (hmem : call ∈ r.calls)
    (hactive : call.active = true) : 0 < r.tracker.activeCopies := by
  have hle := @le_total r call (fun call => if call.active then 1 else 0) hmem
  rw [h.active]
  rw [if_pos hactive] at hle
  exact hle

theorem waitFinished_eq (h : 0 < r.tracker.waitingForCapacity) : r.waitFinished =
    { r with tracker := { r.tracker with
      waitingForCapacity := r.tracker.waitingForCapacity - 1
      capacityWaitCount := r.tracker.capacityWaitCount + 1 } } := by
  rw [waitFinished, PayloadCopyHealthTracker.capacityWaitFinished, if_neg h.ne']

theorem Sound.timeout (h : r.Sound) (waiting : Bool) : (r.timeout waiting).Sound :=
  ⟨⟨h.accounts.calls, h.accounts.slots, h.accounts.active, h.accounts.waiting, h.accounts.balance,
    h.accounts.errors⟩, h.drained.closing, h.drained.closed⟩

/-- A waiting caller leaves; a slot it acquired goes back. -/
theorem Sound.leave (h : r.Sound) (hi : r.calls[i]? = some call) (hwaits : call.waits = true)
    (hdone : call.acquire.done = true)
    (hcalls : t.calls = r.calls.set i { call with position := .ended, cancelling := false })
    (hvalue : t.value = r.value + if call.acquire = .acquired then 1 else 0)
    (hmax : t.maxConcurrency = r.maxConcurrency) (htracker : t.tracker = r.tracker)
    (herrors : t.trackerErrors = r.trackerErrors) (hclosing : t.closing = r.closing)
    (hclosed : t.closed = r.closed) : t.waitFinished.Sound := by
  have hmem := List.mem_of_getElem? hi
  have hs := h.accounts.calls call hmem
  have hpos := h.accounts.waiting_pos hmem hwaits
  have hgranted : call.acquire ≠ .granted := by
    intro heq
    rw [heq] at hdone
    cases hdone
  have hworker : call.worker = none := by
    cases hposition : call.position with
    | acquiring => exact hs.acquiring hposition
    | reaping timedOut => exact (hs.reaping timedOut hposition).1
    | copying => simp [CopyCall.waits, hposition] at hwaits
    | ended => simp [CopyCall.waits, hposition] at hwaits
  have hplace : call.acquire = .acquired → call.position = .acquiring := by
    intro hacquired
    cases hposition : call.position with
    | acquiring => rfl
    | reaping timedOut => exact absurd hacquired (hs.stopping (hs.reaping timedOut hposition).2)
    | copying => simp [CopyCall.waits, hposition] at hwaits
    | ended => simp [CopyCall.waits, hposition] at hwaits
  have hslots : call.slots = if call.acquire = .acquired then 1 else 0 := by
    by_cases hacquired : call.acquire = .acquired
    · simp [CopyCall.slots, CopyCall.active, hworker, hacquired, hplace hacquired]
    · simp [CopyCall.slots, CopyCall.active, hworker, hgranted, hacquired]
  rw [← htracker] at hpos
  rw [waitFinished_eq hpos]
  refine ⟨h.accounts.change hi (hs.finish hdone) hcalls hmax ?_ ?_ ?_ ?_ herrors,
    h.drained.change hi hcalls hclosing hclosed (.inl rfl)⟩
  · have hzero : ({ call with position := .ended, cancelling := false } : CopyCall).slots = 0 := by
      simp [CopyCall.slots, hgranted, hworker, CopyCall.active]
    rw [hslots, hzero, hvalue]
    rfl
  · rw [htracker]
    rfl
  · have hleft : ({ call with position := .ended, cancelling := false } : CopyCall).waits = false :=
      rfl
    rw [if_pos hwaits, hleft, if_neg Bool.false_ne_true, ← htracker]
    exact Nat.sub_add_cancel hpos
  · rw [htracker]
    exact h.accounts.balance

/-- A caller with a slot starts its worker. -/
theorem Sound.started (h : r.Sound) (hi : r.calls[i]? = some call)
    (hposition : call.position = .acquiring) (hacquire : call.acquire = .acquired)
    (hopen : r.closing = false) {position : CopyPosition}
    (hnext : position = .copying ∨ position = .ended)
    (hcalls : t.calls = r.calls.set i { call with
      position := position, worker := some ⟨.queued, .pending, false, false⟩ })
    (hvalue : t.value = r.value) (hmax : t.maxConcurrency = r.maxConcurrency)
    (htracker : t.tracker = r.waitFinished.tracker.copyStarted)
    (herrors : t.trackerErrors = r.waitFinished.trackerErrors) (hclosing : t.closing = r.closing)
    (hclosed : t.closed = r.closed) : t.Sound := by
  have hmem := List.mem_of_getElem? hi
  have hs := h.accounts.calls call hmem
  have hwaits : call.waits = true := by rw [CopyCall.waits, hposition]
  have hworker := hs.acquiring hposition
  have hpos := h.accounts.waiting_pos hmem hwaits
  have hbalance := h.accounts.balance
  have hstopping : call.stopping = false := by
    cases hstop : call.stopping with
    | false => rfl
    | true => exact absurd hacquire (hs.stopping hstop)
  rw [waitFinished_eq hpos] at htracker herrors
  refine ⟨h.accounts.change hi ?_ hcalls hmax ?_ ?_ ?_ ?_ herrors,
    h.drained.change hi hcalls hclosing hclosed (.inr hopen)⟩
  · refine ⟨?_, ?_, ?_, fun _ => by rw [hacquire]; rfl, ?_⟩
    · intro hstop
      rw [hstopping] at hstop
      cases hstop
    · rintro rfl
      rcases hnext with hnext | hnext <;> cases hnext
    · rintro timedOut rfl
      rcases hnext with hnext | hnext <;> cases hnext
    · intro w hw
      obtain rfl := Option.some.inj hw
      refine ⟨hacquire, ?_, ?_, ?_⟩ <;> intro hfalse <;> cases hfalse
  · have hnot : position ≠ .acquiring := by rcases hnext with rfl | rfl <;> decide
    simp [CopyCall.slots, CopyCall.active, hacquire, hposition, hworker, hnot, hvalue]
  · rw [htracker]
    simp [CopyCall.active, hworker, PayloadCopyHealthTracker.copyStarted]
  · have hnot : ¬ ({ call with
        position := position
        worker := some ⟨.queued, .pending, false, false⟩ } : CopyCall).waits = true := by
      rcases hnext with rfl | rfl <;> exact Bool.false_ne_true
    rw [htracker, if_pos hwaits, if_neg hnot]
    exact Nat.sub_add_cancel hpos
  · rw [htracker]
    change r.tracker.startedCount + 1 =
      r.tracker.activeCopies + 1 + r.tracker.completedCount + r.tracker.failureCount
    omega

theorem start_sound (h : r.Sound) (hi : r.calls[i]? = some call)
    (hposition : call.position = .acquiring) (hacquire : call.acquire = .acquired)
    (hopen : r.closing = false) (expired : Bool) : (r.start i call expired).Sound := by
  have hmax : r.waitFinished.maxConcurrency = r.maxConcurrency ∧
      r.waitFinished.value = r.value ∧ r.waitFinished.closing = r.closing ∧
      r.waitFinished.closed = r.closed ∧ r.waitFinished.calls = r.calls := by
    rw [waitFinished]
    split <;> exact ⟨rfl, rfl, rfl, rfl, rfl⟩
  obtain ⟨hmax, hvalue, hclosing, hclosed, hcalls⟩ := hmax
  rw [start]
  split
  · apply Sound.timeout
    refine h.started hi hposition hacquire hopen (.inr rfl) ?_ hvalue hmax rfl rfl hclosing hclosed
    exact congrArg (List.set · i _) hcalls
  · refine h.started hi hposition hacquire hopen (.inl rfl) ?_ hvalue hmax rfl rfl hclosing hclosed
    exact congrArg (List.set · i _) hcalls

theorem markClosedIfDrained_sound (h : r.Accounts) (hclosed : r.closed = true →
    r.closing = true ∧ ∀ call ∈ r.calls, call.active = false) : r.markClosedIfDrained.Sound := by
  rw [markClosedIfDrained]
  split
  · rename_i hkeep
    refine ⟨h, fun hc => (hclosed hc).1, fun hc => ⟨fun hc => (hclosed hc).2, fun hall => ?_⟩⟩
    rcases hkeep with hopen | hworkers | hdone
    · rw [hc] at hopen
      cases hopen
    · exact absurd (workers_eq_nil.mpr hall) hworkers
    · exact hdone
  · rename_i hkeep
    rw [not_or, not_or, not_not] at hkeep
    obtain ⟨hclosing, hworkers, -⟩ := hkeep
    refine ⟨⟨h.calls, h.slots, h.active, h.waiting, h.balance, h.errors⟩, fun _ => ?_,
      fun _ => ⟨fun _ => workers_eq_nil.mp hworkers, fun _ => rfl⟩⟩
    exact Bool.not_eq_false _ ▸ hclosing

/-- The slot of a worker comes back once its task has ended. -/
theorem releaseSlot_sound (h : r.Sound) (hi : r.calls[i]? = some call)
    (hw : call.worker = some w) (hdone : w.task.done = true) :
    (r.releaseSlot i call w).Sound := by
  rw [releaseSlot]
  split
  · exact h
  · rename_i hheld
    have hmem := List.mem_of_getElem? hi
    have hs := h.accounts.calls call hmem
    have hactive : call.active = true := by
      rw [CopyCall.active, hw, Option.any_some]
      simpa using hheld
    have hpos := h.accounts.active_pos hmem hactive
    have hbalance := h.accounts.balance
    have hopen : r.closed ≠ true := by
      intro hclosed
      have hall := (h.drained.closed (h.drained.closing hclosed)).mp hclosed
      rw [hall call hmem] at hactive
      cases hactive
    have hleft : ¬({ call with worker := some { w with released := true } } : CopyCall).active =
        true := Bool.false_ne_true
    have hmoved : ∀ tracker : PayloadCopyHealthTracker,
        tracker.activeCopies + 1 = r.tracker.activeCopies →
        tracker.waitingForCapacity = r.tracker.waitingForCapacity →
        tracker.startedCount =
          tracker.activeCopies + tracker.completedCount + tracker.failureCount →
        ({ r.setCall i { call with worker := some { w with released := true } } with
          tracker := tracker }).release.markClosedIfDrained.Sound := by
      intro tracker hcopies hwaiting hcount
      refine markClosedIfDrained_sound (h.accounts.change hi ?_ rfl rfl ?_ ?_ ?_ hcount rfl)
        (fun hclosed => absurd hclosed hopen)
      · have hlast := (hs.worker w hw).2
        exact hs.setWorker hw (fun _ => hdone) hlast.2.1 hlast.2.2
      · have hslots := CopyCall.slots_setWorker call (some { w with released := true })
        rw [if_pos hactive, if_neg hleft] at hslots
        change r.value + 1 + _ = _
        omega
      · rw [if_pos hactive, if_neg hleft]
        exact hcopies
      · exact congrArg (· + _) hwaiting
    rw [PayloadCopyHealthTracker.copyFinished, if_neg hpos.ne']
    split
    · rename_i hnone
      split at hnone <;> cases hnone
    · rename_i tracker hsome
      split at hsome
      · obtain rfl := Option.some.inj hsome
        refine hmoved _ ?_ rfl ?_
        · exact Nat.sub_add_cancel hpos
        · dsimp only
          omega
      · obtain rfl := Option.some.inj hsome
        refine hmoved _ ?_ rfl ?_
        · exact Nat.sub_add_cancel hpos
        · dsimp only
          omega

theorem timeout_if (h : r.Sound) (c waiting : Bool) : ∃ r' : AsyncPayloadIsolator,
    (if c then r.timeout waiting else r) = r' ∧ r'.Sound ∧ r'.calls = r.calls := by
  split
  · exact ⟨_, rfl, h.timeout waiting, rfl⟩
  · exact ⟨_, rfl, h, rfl⟩

theorem getElem?_setCall (hi : r.calls[i]? = some call) :
    (r.setCall i call').calls[i]? = some call' :=
  List.getElem?_set_self (List.getElem?_eq_some_iff.mp hi).1

/-- The caller changes and nothing else. -/
theorem Sound.setCall (h : r.Sound) (hi : r.calls[i]? = some call) (hcall : call'.Sound)
    (hslots : call'.slots = call.slots) (hactive : call'.active = call.active)
    (hwaits : call'.waits = call.waits) : (r.setCall i call').Sound :=
  h.move hi hcall (congrArg (r.value + ·) hslots) rfl rfl rfl rfl rfl rfl hactive hwaits

/-- The caller stops waiting for its slot and cancels the acquisition. -/
theorem Sound.reap (h : r.Sound) (hi : r.calls[i]? = some call)
    (hposition : call.position = .acquiring) (hacquire : call.acquire ≠ .acquired)
    (timedOut : Bool) (cancelling : Bool) :
    (r.setCall i { call with
      stopping := true, position := .reaping timedOut, cancelling := cancelling }).Sound := by
  have hs := h.accounts.calls call (List.mem_of_getElem? hi)
  refine h.setCall hi ?_ ?_ rfl ?_
  · refine ⟨fun _ => hacquire, fun hp => ?_, fun _ _ => ⟨hs.acquiring hposition, rfl⟩, ?_,
      hs.worker⟩
    · cases hp
    · rintro (hp | hp) <;> cases hp
  · exact CopyCall.slots_congr rfl rfl fun hacquired => absurd hacquired hacquire
  · rw [CopyCall.waits, CopyCall.waits, hposition]

/-- The caller of a copy goes its way; the worker keeps its slot. -/
theorem Sound.depart (h : r.Sound) (hi : r.calls[i]? = some call)
    (hposition : call.position = .copying) :
    (r.setCall i { call with position := .ended, cancelling := false }).Sound := by
  have hs := h.accounts.calls call (List.mem_of_getElem? hi)
  refine h.setCall hi (hs.finish (hs.ended (.inl hposition))) ?_ rfl ?_
  · refine CopyCall.slots_congr rfl rfl fun _ => ?_
    rw [hposition]
    exact iff_of_false nofun nofun
  · rw [CopyCall.waits, CopyCall.waits, hposition]

theorem wakeTurn_sound (h : r.Sound) (hi : r.calls[i]? = some call) {expired : Bool}
    (ht : r.wakeTurn i call expired = some t) : t.Sound := by
  have hwaits : call.position = .acquiring → call.waits = true := by
    intro hposition
    rw [CopyCall.waits, hposition]
  rw [wakeTurn] at ht
  dsimp only at ht
  split at ht
  · rename_i hposition
    split at ht
    · split at ht
      · rename_i hacquire
        obtain rfl := Option.some.inj ht
        refine h.leave hi (hwaits hposition) (by rw [hacquire]; rfl) rfl ?_ rfl rfl rfl rfl rfl
        rw [if_pos hacquire]
        rfl
      · rename_i hacquire
        obtain rfl := Option.some.inj ht
        refine h.leave hi (hwaits hposition) (by rw [hacquire]; rfl) rfl ?_ rfl rfl rfl rfl rfl
        rw [if_neg (by rw [hacquire]; decide)]
        rfl
      · rename_i hacquire _
        obtain rfl := Option.some.inj ht
        exact h.reap hi hposition hacquire false false
    · split at ht
      · rename_i hacquire
        split at ht
        · obtain rfl := Option.some.inj ht
          refine h.leave hi (hwaits hposition) (by rw [hacquire]; rfl) rfl ?_ rfl rfl rfl rfl rfl
          rw [if_pos hacquire]
          rfl
        · rename_i hopen
          obtain rfl := Option.some.inj ht
          exact start_sound h hi hposition hacquire (Bool.eq_false_iff.mpr hopen) expired
      · rename_i hacquire
        obtain rfl := Option.some.inj ht
        refine h.leave hi (hwaits hposition) (by rw [hacquire]; rfl) rfl ?_ rfl rfl rfl rfl rfl
        rw [if_neg (by rw [hacquire]; decide)]
        rfl
      · rename_i hacquire _
        split at ht
        · obtain rfl := Option.some.inj ht
          exact h.reap hi hposition hacquire true call.cancelling
        · cases ht
  · rename_i hposition
    split at ht
    · obtain rfl := Option.some.inj ht
      exact h.depart hi hposition
    · split at ht
      · rename_i w hw
        split at ht
        · rename_i hdone
          obtain rfl := Option.some.inj ht
          obtain ⟨r', hr', hsound, hcalls⟩ := timeout_if h
            (call.deadline && expired && !w.task.failed) false
          rw [hr']
          rw [← hcalls] at hi
          exact releaseSlot_sound (hsound.depart hi hposition) (getElem?_setCall hi) hw hdone
        · split at ht
          · obtain rfl := Option.some.inj ht
            exact (h.depart hi hposition).timeout false
          · cases ht
      · cases ht
  · cases ht

theorem reapTurn_sound (h : r.Sound) (hi : r.calls[i]? = some call)
    (ht : r.reapTurn i call = some t) : t.Sound := by
  rw [reapTurn] at ht
  split at ht
  · rename_i timedOut hposition
    split at ht
    · rename_i hdone
      obtain rfl := Option.some.inj ht
      have hwaits : call.waits = true := by rw [CopyCall.waits, hposition]
      have hs := h.accounts.calls call (List.mem_of_getElem? hi)
      have hacquire := hs.stopping (hs.reaping timedOut hposition).2
      obtain ⟨r', hr', hsound, hcalls⟩ := timeout_if h (timedOut && !call.cancelling) true
      rw [hr']
      rw [← hcalls] at hi
      refine hsound.leave hi hwaits hdone rfl ?_ rfl rfl rfl rfl rfl
      rw [if_neg hacquire]
      rfl
    · cases ht
  · cases ht

/-- The worker changes; it stays in `_workers`. -/
theorem Sound.setWorker (h : r.Sound) (hi : r.calls[i]? = some call) (hw : call.worker = some w)
    (hreleased : w'.released = w.released) (hkeep : w.task.done = true → w'.task.done = true)
    (hdone : w'.task.done = true → w'.thread.ended = true)
    (hstopping : w'.stopping = true → w'.thread.ended = true) :
    (r.setCall i { call with worker := some w' }).Sound := by
  have hs := h.accounts.calls call (List.mem_of_getElem? hi)
  have hactive : ({ call with worker := some w' } : CopyCall).active = call.active := by
    rw [CopyCall.active, CopyCall.active, hw, Option.any_some, Option.any_some, hreleased]
  refine h.setCall hi (hs.setWorker hw ?_ hdone hstopping) ?_ hactive rfl
  · intro hrel
    rw [hreleased] at hrel
    exact hkeep ((hs.worker w hw).2.1 hrel)
  · exact CopyCall.slots_congr rfl hactive fun _ => Iff.rfl

theorem workerTurn_sound (h : r.Sound) (hi : r.calls[i]? = some call) (hw : call.worker = some w)
    (ht : r.workerTurn i call w = some t) : t.Sound := by
  have hworker := ((h.accounts.calls call (List.mem_of_getElem? hi)).worker w hw).2.2
  rw [workerTurn] at ht
  split at ht
  · split at ht
    · rename_i hstop
      obtain rfl := Option.some.inj ht
      have hended : w.thread.ended = true := hworker.2 hstop
      have hkeep : (if w.thread = .queued then CopyThread.dropped else w.thread).ended = true := by
        split
        · rfl
        · exact hended
      exact h.setWorker hi hw rfl (fun _ => rfl) (fun _ => hkeep) (fun _ => hkeep)
    · split at ht
      · rename_i hthread
        obtain rfl := Option.some.inj ht
        have hended : w.thread.ended = true := by rw [hthread]; rfl
        exact h.setWorker hi hw rfl (fun _ => rfl) (fun _ => hended) (fun _ => hended)
      · rename_i hthread
        obtain rfl := Option.some.inj ht
        have hended : w.thread.ended = true := by rw [hthread]; rfl
        exact h.setWorker hi hw rfl (fun _ => rfl) (fun _ => hended) (fun _ => hended)
      · cases ht
  · cases ht

/-- The thread of a worker moves. -/
theorem thread_sound (h : r.Sound) (hi : r.calls[i]? = some call) (hw : call.worker = some w)
    (hthread : w.thread.ended = false) (thread : CopyThread) :
    (r.setCall i { call with worker := some { w with thread := thread } }).Sound := by
  have hworker := ((h.accounts.calls call (List.mem_of_getElem? hi)).worker w hw).2.2
  refine h.setWorker hi hw rfl id (fun hdone => ?_) (fun hstop => ?_)
  · rw [hworker.1 hdone] at hthread
    cases hthread
  · rw [hworker.2 hstop] at hthread
    cases hthread

theorem run_sound (h : r.Sound) (deadline expired expiredWaiting : Bool) :
    (r.run deadline expired expiredWaiting).Sound := by
  rw [run]
  split
  · exact h
  · rename_i hopen
    rw [Bool.or_eq_true, not_or] at hopen
    split
    · exact h.timeout false
    · dsimp only
      split
      · rw [waitFinished_eq (Nat.succ_pos _)]
        exact ⟨⟨h.accounts.calls, h.accounts.slots, h.accounts.active, h.accounts.waiting,
          h.accounts.balance, h.accounts.errors⟩, h.drained.closing, h.drained.closed⟩
      · have htotal : ∀ f : CopyCall → ℕ,
            ((r.calls ++ [(⟨deadline, .created, false, .acquiring, false, none⟩ : CopyCall)]).map
              f).sum = r.total f + f ⟨deadline, .created, false, .acquiring, false, none⟩ := by
          intro f
          rw [List.map_append, List.sum_append, List.map_singleton, List.sum_singleton]
          rfl
        refine ⟨⟨?_, ?_, ?_, ?_, h.accounts.balance, h.accounts.errors⟩, h.drained.closing, ?_⟩
        · intro call hmem
          rcases List.mem_append.mp hmem with hmem | hmem
          · exact h.accounts.calls call hmem
          · obtain rfl := List.mem_singleton.mp hmem
            exact ⟨nofun, fun _ => rfl, nofun, nofun, nofun⟩
        · rw [total, htotal]
          exact h.accounts.slots
        · rw [total, htotal]
          exact h.accounts.active
        · rw [total, htotal]
          exact congrArg (· + 1) h.accounts.waiting
        · intro hc
          exact absurd hc hopen.1

/-- Every call changes on its own and keeps its place in the books. -/
theorem Accounts.mapCalls (h : r.Accounts) {calls : List CopyCall} (g : ℕ → CopyCall → CopyCall)
    (hcalls : ∀ i : ℕ, calls[i]? = r.calls[i]?.map (g i))
    (hsame : ∀ i call, r.calls[i]? = some call → (g i call).Sound ∧
      (g i call).slots = call.slots ∧ (g i call).active = call.active ∧
      (g i call).waits = call.waits) : ({ r with calls := calls }).Accounts := by
  have htotal : ∀ f : CopyCall → ℕ, (∀ i call, r.calls[i]? = some call → f (g i call) = f call) →
      (calls.map f).sum = r.total f := by
    intro f hf
    refine congrArg List.sum (List.ext_getElem? fun i => ?_)
    rw [List.getElem?_map, List.getElem?_map, hcalls]
    cases hi : r.calls[i]? with
    | none => rfl
    | some call => exact congrArg some (hf i call hi)
  refine ⟨?_, ?_, ?_, ?_, h.balance, h.errors⟩
  · intro call' hmem
    obtain ⟨i, hi⟩ := List.getElem?_of_mem hmem
    rw [hcalls, Option.map_eq_some_iff] at hi
    obtain ⟨call, hcall, rfl⟩ := hi
    exact (hsame i call hcall).1
  · rw [total, htotal _ fun i call hi => (hsame i call hi).2.1]
    exact h.slots
  · rw [total, htotal _ fun i call hi => by rw [(hsame i call hi).2.2.1]]
    exact h.active
  · rw [total, htotal _ fun i call hi => by rw [(hsame i call hi).2.2.2]]
    exact h.waiting

/-- What is active stays active, call by call. -/
theorem idle_mapCalls {calls : List CopyCall} {g : ℕ → CopyCall → CopyCall}
    (hcalls : ∀ i : ℕ, calls[i]? = r.calls[i]?.map (g i))
    (hactive : ∀ i call, r.calls[i]? = some call → (g i call).active = call.active) :
    (∀ call ∈ calls, call.active = false) ↔ ∀ call ∈ r.calls, call.active = false := by
  constructor
  · intro hall call hmem
    obtain ⟨i, hi⟩ := List.getElem?_of_mem hmem
    rw [← hactive i call hi]
    refine hall _ (List.mem_of_getElem? (i := i) ?_)
    rw [hcalls, hi, Option.map_some]
  · intro hall call' hmem
    obtain ⟨i, hi⟩ := List.getElem?_of_mem hmem
    rw [hcalls, Option.map_eq_some_iff] at hi
    obtain ⟨call, hcall, rfl⟩ := hi
    rw [hactive i call hcall]
    exact hall call (List.mem_of_getElem? hcall)

theorem Sound.closers (h : r.Sound) (closers : List ClosePosition) :
    ({ r with closers := closers }).Sound :=
  ⟨⟨h.accounts.calls, h.accounts.slots, h.accounts.active, h.accounts.waiting, h.accounts.balance,
    h.accounts.errors⟩, h.drained.closing, h.drained.closed⟩

theorem aclose_sound (h : r.Sound) (timed : Bool) : (r.aclose timed).Sound := by
  rw [aclose]
  split
  · exact h
  · rename_i hopen
    dsimp only
    split
    · exact h.closers _
    · have hmarked : ({ r with
          closing := true
          tracker := r.tracker.startShutdown
          calls := r.calls.map CopyCall.rejectWaiting }).markClosedIfDrained.Sound := by
        refine markClosedIfDrained_sound ?_ fun hclosed => absurd hclosed hopen
        have hcalls := h.accounts.mapCalls (fun _ => CopyCall.rejectWaiting)
          (fun _ => List.getElem?_map) fun i call hi =>
            ⟨(h.accounts.calls call (List.mem_of_getElem? hi)).rejectWaiting,
              call.rejectWaiting_same⟩
        exact ⟨hcalls.calls, hcalls.slots, hcalls.active, hcalls.waiting, hcalls.balance,
          hcalls.errors⟩
      split
      · exact hmarked
      · exact hmarked.closers _

theorem cancelWorkers_sound (h : r.Sound) {workers : List ℕ}
    (hended : ∀ i ∈ workers, ∀ call w, r.calls[i]? = some call → call.worker = some w →
      w.task.done = false → w.thread.ended = true) : (r.cancelWorkers workers).Sound := by
  have hcalls : ∀ i : ℕ, (r.calls.mapIdx fun i call =>
      if i ∈ workers then call.stopWorker else call)[i]? =
      r.calls[i]?.map fun call => if i ∈ workers then call.stopWorker else call :=
    fun _ => List.getElem?_mapIdx
  have hsame : ∀ i (call : CopyCall), r.calls[i]? = some call →
      (if i ∈ workers then call.stopWorker else call).Sound ∧
      (if i ∈ workers then call.stopWorker else call).slots = call.slots ∧
      (if i ∈ workers then call.stopWorker else call).active = call.active ∧
      (if i ∈ workers then call.stopWorker else call).waits = call.waits := by
    intro i call hi
    have hs := h.accounts.calls call (List.mem_of_getElem? hi)
    split
    · rename_i hmem
      exact ⟨hs.stopWorker fun w => hended i hmem call w hi, call.stopWorker_same⟩
    · exact ⟨hs, rfl, rfl, rfl⟩
  refine ⟨h.accounts.mapCalls _ hcalls hsame, h.drained.closing, fun hc => ?_⟩
  exact (h.drained.closed hc).trans
    (idle_mapCalls hcalls fun i call hi => (hsame i call hi).2.2.1).symm

theorem step_sound {e : CopyEvent} (hquiet : ¬r.Interrupts e) (h : r.Sound)
    (ht : r.step e = some t) : t.Sound := by
  cases e with
  | run deadline expired expiredWaiting =>
    obtain rfl := Option.some.inj ht
    exact run_sound h deadline expired expiredWaiting
  | acquire i =>
    obtain ⟨call, hi, ht⟩ := Option.bind_eq_some_iff.mp ht
    exact acquireTurn_sound h hi ht
  | grant i =>
    obtain ⟨call, hi, ht⟩ := Option.bind_eq_some_iff.mp ht
    split at ht
    · rename_i hgrant
      obtain ⟨hacquire, hstop, hpos⟩ := hgrant
      obtain rfl := Option.some.inj ht
      refine h.setAcquire hi (by rw [hacquire]; rfl) _ _ (by simp) ?_
      simp only [hacquire, reduceCtorEq, or_false, if_true, if_false]
      omega
    · cases ht
  | cancel i =>
    obtain ⟨call, hi, ht⟩ := Option.bind_eq_some_iff.mp ht
    split at ht
    · cases ht
    · obtain rfl := Option.some.inj ht
      have hs := h.accounts.calls call (List.mem_of_getElem? hi)
      exact h.setCall hi ⟨hs.stopping, hs.acquiring, hs.reaping, hs.ended, hs.worker⟩ rfl rfl rfl
  | wake i expired =>
    obtain ⟨call, hi, ht⟩ := Option.bind_eq_some_iff.mp ht
    exact wakeTurn_sound h hi ht
  | reap i =>
    obtain ⟨call, hi, ht⟩ := Option.bind_eq_some_iff.mp ht
    exact reapTurn_sound h hi ht
  | threadStarts i =>
    obtain ⟨call, hi, ht⟩ := Option.bind_eq_some_iff.mp ht
    obtain ⟨w, hw, ht⟩ := Option.bind_eq_some_iff.mp ht
    split at ht
    · rename_i hthread
      obtain rfl := Option.some.inj ht
      exact thread_sound h hi hw (by rw [hthread]; rfl) .running
    · cases ht
  | threadEnds i raised =>
    obtain ⟨call, hi, ht⟩ := Option.bind_eq_some_iff.mp ht
    obtain ⟨w, hw, ht⟩ := Option.bind_eq_some_iff.mp ht
    split at ht
    · rename_i hthread
      obtain rfl := Option.some.inj ht
      exact thread_sound h hi hw (by rw [hthread]; rfl) _
    · cases ht
  | workerEnds i =>
    obtain ⟨call, hi, ht⟩ := Option.bind_eq_some_iff.mp ht
    obtain ⟨w, hw, ht⟩ := Option.bind_eq_some_iff.mp ht
    exact workerTurn_sound h hi hw ht
  | callback i =>
    obtain ⟨call, hi, ht⟩ := Option.bind_eq_some_iff.mp ht
    obtain ⟨w, hw, ht⟩ := Option.bind_eq_some_iff.mp ht
    split at ht
    · rename_i hdone
      obtain rfl := Option.some.inj ht
      exact releaseSlot_sound h hi hw hdone
    · cases ht
  | aclose timed =>
    obtain rfl := Option.some.inj ht
    exact aclose_sound h timed
  | closerWakes j timedOut =>
    rw [step] at ht
    split at ht
    · split at ht
      · obtain rfl := Option.some.inj ht
        exact h.closers _
      · split at ht
        · obtain rfl := Option.some.inj ht
          have hcloser := h.closers (r.closers.set j .ended)
          have haccounts := hcloser.accounts
          exact ⟨⟨haccounts.calls, haccounts.slots, haccounts.active, haccounts.waiting,
            haccounts.balance, haccounts.errors⟩, hcloser.drained.closing, hcloser.drained.closed⟩
        · cases ht
    · split at ht
      · obtain rfl := Option.some.inj ht
        exact h.closers _
      · cases ht
    · cases ht
  | closerEnds j =>
    rw [step] at ht
    split at ht
    · obtain rfl := Option.some.inj ht
      have hcloser := h.closers (r.closers.set j .ended)
      refine markClosedIfDrained_sound hcloser.accounts fun hclosed => ?_
      have hclosing := hcloser.drained.closing hclosed
      exact ⟨hclosing, (hcloser.drained.closed hclosing).mp hclosed⟩
    · cases ht
  | cancelClose j =>
    rw [step] at ht
    split at ht
    · rename_i workers timed hcloser
      split at ht
      · obtain rfl := Option.some.inj ht
        exact h.closers _
      · rename_i htimed
        obtain rfl := Option.some.inj ht
        rw [Bool.not_eq_true] at htimed
        subst htimed
        refine cancelWorkers_sound (h.closers _) fun i hmem call w hi hw htask => ?_
        by_contra hrunning
        rw [Bool.not_eq_true] at hrunning
        exact hquiet ⟨j, workers, rfl, .inl hcloser, i, hmem, call, w, hi, hw, htask, hrunning⟩
    · rename_i workers hcloser
      obtain rfl := Option.some.inj ht
      refine cancelWorkers_sound h fun i hmem call w hi hw htask => ?_
      by_contra hrunning
      rw [Bool.not_eq_true] at hrunning
      exact hquiet ⟨j, workers, rfl, .inr hcloser, i, hmem, call, w, hi, hw, htask, hrunning⟩
    · obtain rfl := Option.some.inj ht
      exact h.closers _
    · cases ht

/-! ## Shutdown -/

/-- The capacity stays as it is. Once the runner closes it stays so and counts no further start. -/
structure Later (r t : AsyncPayloadIsolator) : Prop where
  maxConcurrency : t.maxConcurrency = r.maxConcurrency
  shut : r.closing = true →
    t.closing = true ∧ t.tracker.startedCount = r.tracker.startedCount

theorem Later.refl (r : AsyncPayloadIsolator) : r.Later r := ⟨rfl, fun hclosing => ⟨hclosing, rfl⟩⟩

theorem Later.trans {u : AsyncPayloadIsolator} (h : r.Later t) (h' : t.Later u) : r.Later u := by
  refine ⟨h'.maxConcurrency.trans h.maxConcurrency, fun hclosing => ?_⟩
  obtain ⟨ht, hcount⟩ := h.shut hclosing
  obtain ⟨hu, hcount'⟩ := h'.shut ht
  exact ⟨hu, hcount'.trans hcount⟩

theorem Later.of_eq (hmax : t.maxConcurrency = r.maxConcurrency) (hclosing : t.closing = r.closing)
    (hstarted : t.tracker.startedCount = r.tracker.startedCount) : r.Later t :=
  ⟨hmax, fun h => ⟨hclosing.trans h, hstarted⟩⟩

theorem markClosedIfDrained_later : r.Later r.markClosedIfDrained := by
  rw [markClosedIfDrained]
  split
  · exact .refl r
  · exact .of_eq rfl rfl rfl

theorem waitFinished_later : r.Later r.waitFinished := by
  rw [waitFinished, PayloadCopyHealthTracker.capacityWaitFinished]
  split <;> rename_i hfinished <;> split at hfinished
  · cases hfinished
  · obtain rfl := Option.some.inj hfinished
    exact .of_eq rfl rfl rfl
  · exact .of_eq rfl rfl rfl
  · cases hfinished

theorem releaseSlot_later : r.Later (r.releaseSlot i call w) := by
  rw [releaseSlot, PayloadCopyHealthTracker.copyFinished]
  split
  · exact .refl r
  · split
    · exact .of_eq rfl rfl rfl
    · rename_i tracker hfinished
      have hstarted : tracker.startedCount = r.tracker.startedCount := by
        split at hfinished
        · cases hfinished
        · split at hfinished <;> · obtain rfl := Option.some.inj hfinished; rfl
      have hset : r.Later ({ r.setCall i { call with
          worker := some { w with released := true } } with tracker := tracker }).release :=
        .of_eq rfl rfl hstarted
      exact hset.trans markClosedIfDrained_later

theorem acquireTurn_later (ht : r.acquireTurn i call = some t) : r.Later t := by
  rw [acquireTurn] at ht
  split at ht
  · split at ht
    · obtain rfl := Option.some.inj ht
      exact .of_eq rfl rfl rfl
    · split at ht <;> · obtain rfl := Option.some.inj ht; exact .of_eq rfl rfl rfl
  · split at ht
    · obtain rfl := Option.some.inj ht
      exact .of_eq rfl rfl rfl
    · cases ht
  · split at ht <;> · obtain rfl := Option.some.inj ht; exact .of_eq rfl rfl rfl
  · cases ht

theorem start_maxConcurrency (r : AsyncPayloadIsolator) (call : CopyCall) (expired : Bool) :
    (r.start i call expired).maxConcurrency = r.maxConcurrency := by
  rw [start]
  dsimp only
  split <;> exact (@waitFinished_later r).maxConcurrency

theorem run_maxConcurrency (r : AsyncPayloadIsolator) (deadline expired expiredWaiting : Bool) :
    (r.run deadline expired expiredWaiting).maxConcurrency = r.maxConcurrency := by
  rw [run]
  split
  · rfl
  · split
    · rfl
    · dsimp only
      split
      · exact (@waitFinished_later
          (({ r with tracker := r.tracker.capacityWaitStarted }).timeout true)).maxConcurrency
      · rfl

theorem wakeTurn_later {expired : Bool} (ht : r.wakeTurn i call expired = some t) : r.Later t := by
  have hleave : ∀ call', r.Later (r.setCall i call').waitFinished := fun call' =>
    Later.trans (t := r.setCall i call') (.of_eq rfl rfl rfl) waitFinished_later
  have hreturn : ∀ call', r.Later (r.setCall i call').release.waitFinished := fun call' =>
    Later.trans (t := (r.setCall i call').release) (.of_eq rfl rfl rfl) waitFinished_later
  rw [wakeTurn] at ht
  dsimp only at ht
  split at ht
  · split at ht
    · split at ht
      · obtain rfl := Option.some.inj ht
        exact hreturn _
      · obtain rfl := Option.some.inj ht
        exact hleave _
      · obtain rfl := Option.some.inj ht
        exact .of_eq rfl rfl rfl
    · split at ht
      · split at ht
        · obtain rfl := Option.some.inj ht
          exact hreturn _
        · rename_i hopen
          obtain rfl := Option.some.inj ht
          exact ⟨start_maxConcurrency r call expired, fun hclosing => absurd hclosing hopen⟩
      · obtain rfl := Option.some.inj ht
        exact hleave _
      · split at ht
        · obtain rfl := Option.some.inj ht
          exact .of_eq rfl rfl rfl
        · cases ht
  · split at ht
    · obtain rfl := Option.some.inj ht
      exact .of_eq rfl rfl rfl
    · split at ht
      · rename_i w _
        split at ht
        · obtain rfl := Option.some.inj ht
          refine Later.trans (.of_eq ?_ ?_ ?_) releaseSlot_later
          · dsimp only [setCall]
            split <;> rfl
          · dsimp only [setCall]
            split <;> rfl
          · dsimp only [setCall]
            split <;> rfl
        · split at ht
          · obtain rfl := Option.some.inj ht
            exact .of_eq rfl rfl rfl
          · cases ht
      · cases ht
  · cases ht

theorem reapTurn_later (ht : r.reapTurn i call = some t) : r.Later t := by
  rw [reapTurn] at ht
  split at ht
  · split at ht
    · obtain rfl := Option.some.inj ht
      refine Later.trans (.of_eq ?_ ?_ ?_) waitFinished_later
      · dsimp only [setCall]
        split <;> rfl
      · dsimp only [setCall]
        split <;> rfl
      · dsimp only [setCall]
        split <;> rfl
    · cases ht
  · cases ht

theorem workerTurn_later (ht : r.workerTurn i call w = some t) : r.Later t := by
  rw [workerTurn] at ht
  split at ht
  · split at ht
    · obtain rfl := Option.some.inj ht
      exact .of_eq rfl rfl rfl
    · split at ht
      · obtain rfl := Option.some.inj ht
        exact .of_eq rfl rfl rfl
      · obtain rfl := Option.some.inj ht
        exact .of_eq rfl rfl rfl
      · cases ht
  · cases ht

theorem aclose_later (timed : Bool) : r.Later (r.aclose timed) := by
  rw [aclose]
  split
  · exact .refl r
  · dsimp only
    split
    · exact .of_eq rfl rfl rfl
    · rename_i hopen
      have hmax := (@markClosedIfDrained_later { r with
        closing := true
        tracker := r.tracker.startShutdown
        calls := r.calls.map CopyCall.rejectWaiting }).maxConcurrency
      refine ⟨?_, fun hclosing => absurd hclosing hopen⟩
      split <;> exact hmax

/-- No step of a closing runner starts a copy. -/
theorem step_later {e : CopyEvent} (ht : r.step e = some t) : r.Later t := by
  cases e with
  | run deadline expired expiredWaiting =>
    obtain rfl := Option.some.inj ht
    refine ⟨run_maxConcurrency r deadline expired expiredWaiting, fun hclosing => ?_⟩
    rw [run, hclosing, Bool.true_or, if_pos rfl]
    exact ⟨hclosing, rfl⟩
  | acquire i =>
    obtain ⟨call, hi, ht⟩ := Option.bind_eq_some_iff.mp ht
    exact acquireTurn_later ht
  | grant i =>
    obtain ⟨call, hi, ht⟩ := Option.bind_eq_some_iff.mp ht
    split at ht
    · obtain rfl := Option.some.inj ht
      exact .of_eq rfl rfl rfl
    · cases ht
  | cancel i =>
    obtain ⟨call, hi, ht⟩ := Option.bind_eq_some_iff.mp ht
    split at ht
    · cases ht
    · obtain rfl := Option.some.inj ht
      exact .of_eq rfl rfl rfl
  | wake i expired =>
    obtain ⟨call, hi, ht⟩ := Option.bind_eq_some_iff.mp ht
    exact wakeTurn_later ht
  | reap i =>
    obtain ⟨call, hi, ht⟩ := Option.bind_eq_some_iff.mp ht
    exact reapTurn_later ht
  | threadStarts i =>
    obtain ⟨call, hi, ht⟩ := Option.bind_eq_some_iff.mp ht
    obtain ⟨w, hw, ht⟩ := Option.bind_eq_some_iff.mp ht
    split at ht
    · obtain rfl := Option.some.inj ht
      exact .of_eq rfl rfl rfl
    · cases ht
  | threadEnds i raised =>
    obtain ⟨call, hi, ht⟩ := Option.bind_eq_some_iff.mp ht
    obtain ⟨w, hw, ht⟩ := Option.bind_eq_some_iff.mp ht
    split at ht
    · obtain rfl := Option.some.inj ht
      exact .of_eq rfl rfl rfl
    · cases ht
  | workerEnds i =>
    obtain ⟨call, hi, ht⟩ := Option.bind_eq_some_iff.mp ht
    obtain ⟨w, hw, ht⟩ := Option.bind_eq_some_iff.mp ht
    exact workerTurn_later ht
  | callback i =>
    obtain ⟨call, hi, ht⟩ := Option.bind_eq_some_iff.mp ht
    obtain ⟨w, hw, ht⟩ := Option.bind_eq_some_iff.mp ht
    split at ht
    · obtain rfl := Option.some.inj ht
      exact releaseSlot_later
    · cases ht
  | aclose timed =>
    obtain rfl := Option.some.inj ht
    exact aclose_later timed
  | closerWakes j timedOut =>
    rw [step] at ht
    split at ht
    · split at ht
      · obtain rfl := Option.some.inj ht
        exact .of_eq rfl rfl rfl
      · split at ht
        · obtain rfl := Option.some.inj ht
          exact .of_eq rfl rfl rfl
        · cases ht
    · split at ht
      · obtain rfl := Option.some.inj ht
        exact .of_eq rfl rfl rfl
      · cases ht
    · cases ht
  | closerEnds j =>
    rw [step] at ht
    split at ht
    · obtain rfl := Option.some.inj ht
      exact Later.trans (t := r.setCloser j .ended) (.of_eq rfl rfl rfl) markClosedIfDrained_later
    · cases ht
  | cancelClose j =>
    rw [step] at ht
    split at ht
    · split at ht <;> · obtain rfl := Option.some.inj ht; exact .of_eq rfl rfl rfl
    · obtain rfl := Option.some.inj ht
      exact .of_eq rfl rfl rfl
    · obtain rfl := Option.some.inj ht
      exact .of_eq rfl rfl rfl
    · cases ht

theorem run_later {ok : AsyncPayloadIsolator → CopyEvent → Prop} {es : List CopyEvent}
    (h : RunOf step ok r es t) : r.Later t :=
  h.related Later Later.refl Later.trans fun _ _ _ _ hstep => step_later hstep

/-! ## What a runner keeps -/

/-- Slots, copies, counters and the closed mark agree. -/
structure Conserved (r : AsyncPayloadIsolator) : Prop where
  bounded : r.calls.countP CopyCall.copies ≤ r.maxConcurrency
  held : ∀ call ∈ r.calls, call.copies = true → call.slots = 1
  slots : r.value + r.total CopyCall.slots = r.maxConcurrency
  free : (∀ call ∈ r.calls, call.position = .ended ∧ call.active = false) →
    r.value = r.maxConcurrency
  balance : r.tracker.startedCount =
    r.tracker.activeCopies + r.tracker.completedCount + r.tracker.failureCount
  errors : r.trackerErrors = 0
  closed : r.closed = true → ∀ call ∈ r.calls, call.active = false ∧ call.copies = false

theorem countP_le_sum {α : Type} {p : α → Bool} {f : α → ℕ} : ∀ {l : List α},
    (∀ a ∈ l, p a = true → 1 ≤ f a) → l.countP p ≤ (l.map f).sum
  | [], _ => Nat.zero_le _
  | a :: l, h => by
      have hrest := countP_le_sum fun b hb => h b (List.mem_cons_of_mem _ hb)
      have ha := h a List.mem_cons_self
      rw [List.countP_cons, List.map_cons, List.sum_cons]
      split
      · rename_i hp
        have := ha hp
        omega
      · omega

theorem Sound.conserved (h : r.Sound) : r.Conserved := by
  have hcalls := h.accounts.calls
  have hslots := h.accounts.slots
  refine ⟨?_, fun call hmem hcopies => ((hcalls call hmem).slots_of_copies hcopies).2, hslots,
    fun hover => ?_, h.accounts.balance, h.accounts.errors, fun hclosed call hmem => ?_⟩
  · have hle : r.calls.countP CopyCall.copies ≤ r.total CopyCall.slots := by
      refine countP_le_sum fun call hmem hcopies => ?_
      rw [((hcalls call hmem).slots_of_copies hcopies).2]
    omega
  · have hzero : r.total CopyCall.slots = 0 := by
      refine List.sum_eq_zero fun n hn => ?_
      obtain ⟨call, hmem, rfl⟩ := List.mem_map.mp hn
      exact (hcalls call hmem).slots_of_over (hover call hmem).1 (hover call hmem).2
    omega
  · have hidle := (h.drained.closed (h.drained.closing hclosed)).mp hclosed call hmem
    refine ⟨hidle, ?_⟩
    by_contra hcopies
    rw [Bool.not_eq_false] at hcopies
    rw [((hcalls call hmem).slots_of_copies hcopies).1] at hidle
    cases hidle

theorem new_sound (maxConcurrency : ℕ) : (new maxConcurrency).Sound :=
  ⟨⟨fun _ hmem => absurd hmem List.not_mem_nil, rfl, rfl, rfl, rfl, rfl⟩,
    fun hclosed => absurd hclosed Bool.false_ne_true,
    fun hclosing => absurd hclosing Bool.false_ne_true⟩

/-- In every state of a run in which no cancelled `aclose` reaches a copy that is in its thread. -/
theorem copies_conserved {maxConcurrency : ℕ} {es : List CopyEvent}
    (hrun : RunOf step (fun r e => ¬r.Interrupts e) (new maxConcurrency) es r) :
    r.maxConcurrency = maxConcurrency ∧ r.Conserved ∧ ∀ es' u, Run step r es' u →
      r.closing = true →
        u.closing = true ∧ u.tracker.startedCount = r.tracker.startedCount := by
  have hsound := hrun.invariant Sound (fun _ _ _ hquiet h hstep => step_sound hquiet h hstep)
    (new_sound maxConcurrency)
  exact ⟨(run_later hrun).maxConcurrency, hsound.conserved,
    fun _ _ hafter => (run_later hafter).shut⟩

/-- Two copies share one slot: the first times out and the second stays behind at shutdown. -/
def shutdownUnderLoad : List CopyEvent :=
  [.run true false false, .acquire 0, .wake 0 false, .threadStarts 0, .wake 0 true,
    .run false false false, .acquire 1, .aclose false, .acquire 1, .wake 1 false,
    .threadEnds 0 false, .workerEnds 0, .callback 0, .closerWakes 0 false, .closerEnds 0]

theorem copies_conserved_shutdown : ∃ r, exec step (new 1) shutdownUnderLoad = some r ∧
    r.closed = true ∧ r.Conserved := by
  have hend : ((exec step (new 1) shutdownUnderLoad).any fun r => r.closed) = true := by
    decide +kernel
  obtain ⟨r, hr, hclosed⟩ := (Option.any_eq_true _ _).mp hend
  have hlabels : ∀ e ∈ shutdownUnderLoad, ∀ j, e ≠ .cancelClose j := by
    rintro _ he j rfl
    simp [shutdownUnderLoad] at he
  have hquiet := (RunOf.of_labels (exec_run hr) hlabels).mono
    fun r e he => (fun ⟨j, _, heq, _⟩ => he j heq : ¬r.Interrupts e)
  exact ⟨r, hr, hclosed, (copies_conserved hquiet).2.1⟩

/-- A copy is in its thread when the `aclose` that waits for it is cancelled. -/
def cancelledClose : List CopyEvent :=
  [.run false false false, .acquire 0, .wake 0 false, .threadStarts 0, .aclose false,
    .cancelClose 0, .workerEnds 0, .callback 0]

/-- The slot is free and the runner closed, and the thread still copies. -/
theorem cancelled_close_frees_slot :
    ¬ ∀ es r, Run step (new 1) es r → r.Conserved := by
  intro hall
  have hend : ((exec step (new 1) cancelledClose).any fun r =>
      r.closed && r.calls.any CopyCall.copies) = true := by
    decide +kernel
  obtain ⟨r, hr, hbad⟩ := (Option.any_eq_true _ _).mp hend
  rw [Bool.and_eq_true, List.any_eq_true] at hbad
  obtain ⟨hclosed, call, hmem, hcopies⟩ := hbad
  have hidle := ((hall _ r (exec_run hr)).closed hclosed call hmem).2
  rw [hcopies] at hidle
  cases hidle

end

end AsyncPayloadIsolator
end Coalestra
