import Coalestra.Core.Isolation
import Coalestra.Lib.Dict
import Coalestra.Lib.Runs

/-! # Fixed worker sets

`concurrency/dispatch.py` and the `map` of `core/isolation.py`: a fixed number of worker tasks share
one index and one dictionary of results. A worker has no await between the return of an operation
and the call of the next one, so this is one step; the caller is woken by the first worker that
fails or when all have ended, cancels the others and waits for them.

The operation is anybody's: it returns, raises or keeps its worker waiting as it likes, also when a
cancellation has reached it. With `threaded` it is a copy behind `run`, which may raise before the
copy is called, calls it once it has a slot, and may raise while the copy goes on in its thread.

The state keeps what the program forgets: the calls, the answers and the errors of the operations,
and in `lost` where the workers stood that raised. -/

namespace Coalestra
set_option autoImplicit false
set_option maxHeartbeats 250000

/-- A worker task. `awaiting` has taken an index and not yet called the operation. -/
inductive DispatchWorker
  | created
  | awaiting (index : ℕ)
  | operating (index : ℕ)
  | returned
  | raised
  | cancelled
  deriving DecidableEq, Repr

inductive DispatchError (E : Type)
  | operation (error : E)
  | cancelledError
  | keyError
  deriving DecidableEq, Repr

/-- Where the caller stands: in the first `gather`, in the one that waits for the cancelled workers,
or at its end. -/
inductive DispatchCaller (R E : Type)
  | gathering
  | reaping (error : DispatchError E)
  | returned (results : List R)
  | raised (error : DispatchError E)
  deriving DecidableEq, Repr

/-- A call of `run_bounded`, or of the threaded `map`. `stopping` says that `cancel` has been called
on every worker that had not ended; `threads` are the copies whose `run` has raised before them. -/
structure WorkerPool (A R E : Type) where
  threaded : Bool
  maxTasks : ℕ
  ordered : List A
  workers : List DispatchWorker
  nextIndex : ℕ
  results : Dict ℕ R
  caller : DispatchCaller R E
  stopping : Bool
  callerCancelled : Bool
  activeDispatchWorkers : ℕ
  threads : ℕ
  failures : List (DispatchError E)
  calls : List ℕ
  answers : List (ℕ × R)
  operationErrors : List (DispatchError E)
  lost : List DispatchWorker

/-- What happens next. `leaving` is a `run` that raises while its copy goes on; `asCancelled` is a
caller that was cancelled when its `gather` had already ended. -/
inductive PoolEvent (R E : Type)
  | begins (w : ℕ)
  | calls (w : ℕ)
  | returns (w : ℕ) (result : R)
  | raises (w : ℕ) (error : DispatchError E) (leaving : Bool)
  | threadEnds
  | wake (asCancelled : Bool)
  | reap
  | cancelCaller
  deriving DecidableEq, Repr

namespace DispatchWorker

def done : DispatchWorker → Bool
  | .returned => true
  | .raised => true
  | .cancelled => true
  | _ => false

def operates : DispatchWorker → Bool
  | .operating _ => true
  | _ => false

/-- The worker is inside its `try`. -/
def started : DispatchWorker → Bool
  | .awaiting _ => true
  | .operating _ => true
  | _ => false

/-- The worker has the index `i` in hand. -/
def holds (i : ℕ) : DispatchWorker → Bool
  | .awaiting j => j == i
  | .operating j => j == i
  | _ => false

/-- The worker has called the operation with the item of the index `i`. -/
def calling (i : ℕ) : DispatchWorker → Bool
  | .operating j => j == i
  | _ => false

end DispatchWorker

section
variable {A R E : Type}

/-- How a task ends with an exception. -/
def DispatchError.ending : DispatchError E → DispatchWorker
  | .cancelledError => .cancelled
  | _ => .raised

namespace WorkerPool

/-- The call up to its first await. -/
def new (threaded : Bool) (maxTasks : ℕ) (items : List A) : WorkerPool A R E where
  threaded := threaded
  maxTasks := maxTasks
  ordered := items
  workers := List.replicate (min maxTasks items.length) .created
  nextIndex := 0
  results := .empty
  caller := if items.isEmpty then .returned [] else .gathering
  stopping := false
  callerCancelled := false
  activeDispatchWorkers := 0
  threads := 0
  failures := []
  calls := []
  answers := []
  operationErrors := []
  lost := []

def setWorker (s : WorkerPool A R E) (w : ℕ) (worker : DispatchWorker) : WorkerPool A R E :=
  { s with workers := s.workers.set w worker }

/-- Operations in progress, with the copies that nobody waits for any more. -/
def inProgress (s : WorkerPool A R E) : ℕ := s.workers.countP DispatchWorker.operates + s.threads

def allDone (s : WorkerPool A R E) : Bool := s.workers.all DispatchWorker.done

/-- The worker ends with an exception. -/
def fail (s : WorkerPool A R E) (w : ℕ) (error : DispatchError E) : WorkerPool A R E :=
  { s.setWorker w error.ending with failures := s.failures ++ [error] }

/-- The loop condition, and the body up to its await. -/
def takeNext (s : WorkerPool A R E) (w : ℕ) : WorkerPool A R E :=
  if s.nextIndex < s.ordered.length then
    if s.threaded then
      { s.setWorker w (.awaiting s.nextIndex) with nextIndex := s.nextIndex + 1 }
    else
      { s.setWorker w (.operating s.nextIndex) with
        nextIndex := s.nextIndex + 1
        calls := s.calls ++ [s.nextIndex] }
  else
    { s.setWorker w .returned with activeDispatchWorkers := s.activeDispatchWorkers - 1 }

/-- `tuple(results[index] for index in range(len(ordered)))`. -/
def collect (s : WorkerPool A R E) : Option (List R) :=
  (List.range s.ordered.length).mapM s.results.get?

/-- An exception comes out of the first `gather`: every worker is cancelled. -/
def abort (s : WorkerPool A R E) (error : DispatchError E) : WorkerPool A R E :=
  { s with caller := .reaping error, stopping := true }

def step (s : WorkerPool A R E) : PoolEvent R E → Option (WorkerPool A R E)
  | .begins w =>
    match s.workers[w]? with
    | some .created =>
      -- A task that is cancelled before its first turn does not run its body.
      if s.stopping then some (s.fail w .cancelledError)
      else some ({ s with activeDispatchWorkers := s.activeDispatchWorkers + 1 }.takeNext w)
    | _ => none
  | .calls w =>
    match s.workers[w]? with
    | some (.awaiting i) =>
      if s.inProgress < s.maxTasks then
        some { s.setWorker w (.operating i) with calls := s.calls ++ [i] }
      else none
    | _ => none
  | .returns w result =>
    match s.workers[w]? with
    | some (.operating i) =>
      some ({ s with
        results := s.results.set i result
        answers := s.answers ++ [(i, result)] }.takeNext w)
    | _ => none
  | .raises w error leaving =>
    match s.workers[w]? with
    | some worker =>
      if worker.started = false ∨
        leaving = true ∧ (worker.operates = false ∨ s.threaded = false) then none
      else some { s.fail w error with
        activeDispatchWorkers := s.activeDispatchWorkers - 1
        threads := if leaving then s.threads + 1 else s.threads
        operationErrors := s.operationErrors ++ [error]
        lost := s.lost ++ [worker] }
    | none => none
  | .threadEnds => if s.threads = 0 then none else some { s with threads := s.threads - 1 }
  | .wake asCancelled =>
    match s.caller with
    | .gathering =>
      if asCancelled then
        if s.callerCancelled && (!s.failures.isEmpty || s.allDone) then
          some (s.abort .cancelledError)
        else none
      else
        match s.failures with
        | error :: _ => some (s.abort error)
        | [] =>
          if s.allDone then
            if s.callerCancelled then some (s.abort .cancelledError)
            else
              match s.collect with
              | some results => some { s with caller := .returned results }
              | none => some { s with caller := .raised .keyError }
          else none
    | _ => none
  | .reap =>
    match s.caller with
    | .reaping error => if s.allDone then some { s with caller := .raised error } else none
    | _ => none
  | .cancelCaller =>
    match s.caller with
    | .gathering => some { s with callerCancelled := true, stopping := true }
    | .reaping _ => some { s with callerCancelled := true, caller := .reaping .cancelledError }
    | _ => none

end WorkerPool

/-- `run_bounded` up to its first await. -/
def runBounded (items : List A) (maxTasks : ℕ) : Except String (WorkerPool A R E) :=
  if maxTasks < 1 then .error "max_tasks must be at least 1"
  else .ok (.new false maxTasks items)

/-- `map` with `run_in_thread`, up to its first await; `none` is `_ensure_accepting`. -/
def AsyncPayloadIsolator.map (r : AsyncPayloadIsolator) (items : List A) :
    Option (WorkerPool A R E) :=
  if r.closing || r.closed then none else some (.new true r.maxConcurrency items)

/-- `map` without `run_in_thread`: `run` calls the operation without an await. -/
def inlineMap {S : Type} (run : A → S → Except E R × S) : List A → S → Except E (List R) × S
  | [], s => (.ok [], s)
  | item :: items, s =>
    match run item s with
    | (.error error, s') => (.error error, s')
    | (.ok result, s') =>
      match inlineMap run items s' with
      | (.error error, s'') => (.error error, s'')
      | (.ok results, s'') => (.ok (result :: results), s'')

end
/-! ## Where the indices are -/

section
variable {A R E : Type}

namespace WorkerPool
variable {s t : WorkerPool A R E} {w : ℕ} {a b : DispatchWorker} {e : PoolEvent R E}

/-- The workers, and those that raised as they stood then. -/
def stations (s : WorkerPool A R E) : List DispatchWorker := s.workers ++ s.lost

/-- Every index that has been taken is with one worker, with one that raised, or answered. -/
structure Placed (s : WorkerPool A R E) : Prop where
  size : s.workers.length = min s.maxTasks s.ordered.length
  next : s.nextIndex ≤ s.ordered.length
  placed : ∀ i, s.stations.countP (DispatchWorker.holds i) + (s.answers.map Prod.fst).count i =
    if i < s.nextIndex then 1 else 0
  called : ∀ i, s.calls.count i =
    s.stations.countP (DispatchWorker.calling i) + (s.answers.map Prod.fst).count i
  answered : ∀ i r, s.results.get? i = some r ↔ (i, r) ∈ s.answers
  finished : .returned ∈ s.workers → s.nextIndex = s.ordered.length
  failed : s.lost ≠ [] ∨ .raised ∈ s.workers ∨ .cancelled ∈ s.workers → s.failures ≠ []

theorem stations_set (p : DispatchWorker → Bool) (b : DispatchWorker)
    (h : s.workers[w]? = some a) :
    (s.workers.set w b ++ s.lost).countP p + (if p a then 1 else 0) =
      s.stations.countP p + if p b then 1 else 0 := by
  have := countP_set_add p b h
  simp only [stations, List.countP_append]
  omega

theorem stations_lose (p : DispatchWorker → Bool) (h : s.workers[w]? = some a)
    (hb : p b = false) : (s.workers.set w b ++ (s.lost ++ [a])).countP p = s.stations.countP p := by
  have := countP_set_add p b h
  simp only [stations, List.countP_append, List.countP_singleton]
  rw [hb] at this
  simp only [Bool.false_eq_true, if_false] at this
  omega

theorem Placed.failed_set (h : Placed s) (hraised : b ≠ .raised) (hcancelled : b ≠ .cancelled)
    (hend : s.lost ≠ [] ∨ .raised ∈ s.workers.set w b ∨ .cancelled ∈ s.workers.set w b) :
    s.failures ≠ [] := by
  rcases hend with hl | hr | hr
  · exact h.failed (.inl hl)
  · exact h.failed (.inr (.inl ((List.mem_or_eq_of_mem_set hr).resolve_right hraised.symm)))
  · exact h.failed (.inr (.inr ((List.mem_or_eq_of_mem_set hr).resolve_right hcancelled.symm)))

/-- A worker takes the next index, or finds none. -/
theorem Placed.takeNext (h : Placed s) (hw : s.workers[w]? = some .created) :
    Placed (s.takeNext w) := by
  have hsize : ∀ b, (s.workers.set w b).length = min s.maxTasks s.ordered.length :=
    fun b => List.length_set.trans h.size
  -- The index goes from those that wait to the worker.
  have hplaced : ∀ (b : DispatchWorker) (i : ℕ), b.holds i = (s.nextIndex == i) →
      (s.workers.set w b ++ s.lost).countP (DispatchWorker.holds i) +
        (s.answers.map Prod.fst).count i = if i < s.nextIndex + 1 then 1 else 0 := by
    intro b i hb
    have hset := stations_set (DispatchWorker.holds i) b hw
    have hold := h.placed i
    rw [hb] at hset
    simp only [DispatchWorker.holds, Bool.false_eq_true, if_false, beq_iff_eq] at hset
    split_ifs at hset hold ⊢ <;> omega
  have hfinished : ∀ b, b ≠ .returned → s.nextIndex < s.ordered.length →
      .returned ∉ s.workers.set w b := by
    intro b hb hlt hr
    have := h.finished ((List.mem_or_eq_of_mem_set hr).resolve_right hb.symm)
    omega
  unfold WorkerPool.takeNext
  split
  · rename_i hlt
    split
    · refine ⟨hsize _, hlt, fun i => hplaced _ i rfl, fun i => ?_, h.answered,
        fun hr => absurd hr (hfinished _ nofun hlt), h.failed_set nofun nofun⟩
      have hset := stations_set (DispatchWorker.calling i) (.awaiting s.nextIndex) hw
      simp only [DispatchWorker.calling, Bool.false_eq_true, if_false] at hset
      exact (h.called i).trans (congrArg (· + _) hset.symm)
    · refine ⟨hsize _, hlt, fun i => hplaced _ i rfl, fun i => ?_, h.answered,
        fun hr => absurd hr (hfinished _ nofun hlt), h.failed_set nofun nofun⟩
      have hset := stations_set (DispatchWorker.calling i) (.operating s.nextIndex) hw
      have hold := h.called i
      simp only [DispatchWorker.calling, Bool.false_eq_true, if_false] at hset
      simp only [setWorker, List.count_append, List.count_singleton, stations, beq_iff_eq]
        at hset hold ⊢
      split_ifs at hset ⊢ <;> omega
  · rename_i hge
    refine ⟨hsize _, h.next, fun i => ?_, fun i => ?_, h.answered,
      fun _ => Nat.le_antisymm h.next (Nat.not_lt.mp hge), h.failed_set nofun nofun⟩
    · have hset := stations_set (DispatchWorker.holds i) .returned hw
      simp only [DispatchWorker.holds, Bool.false_eq_true, if_false] at hset
      exact (congrArg (· + _) hset).trans (h.placed i)
    · have hset := stations_set (DispatchWorker.calling i) .returned hw
      simp only [DispatchWorker.calling, Bool.false_eq_true, if_false] at hset
      exact (h.called i).trans (congrArg (· + _) hset.symm)

/-- The answer is stored, and the worker goes back to the head of its loop. -/
theorem Placed.answer {i : ℕ} {result : R} (h : Placed s)
    (hw : s.workers[w]? = some (.operating i)) :
    Placed { s.setWorker w .created with
      results := s.results.set i result
      answers := s.answers ++ [(i, result)] } := by
  have hholds := stations_set (DispatchWorker.holds i) .created hw
  have hplaced := h.placed i
  simp only [DispatchWorker.holds, beq_self_eq_true, if_true, Bool.false_eq_true, if_false]
    at hholds
  have hlt : i < s.nextIndex := by
    by_contra hge
    rw [if_neg hge] at hplaced
    omega
  have hnew : i ∉ s.answers.map Prod.fst := by
    rw [if_pos hlt] at hplaced
    exact List.count_eq_zero.mp (by omega)
  refine ⟨List.length_set.trans h.size, h.next, fun j => ?_, fun j => ?_, fun j r => ?_,
    fun hr => h.finished ((List.mem_or_eq_of_mem_set hr).resolve_right nofun),
    h.failed_set nofun nofun⟩
  · have hset := stations_set (DispatchWorker.holds j) .created hw
    refine Eq.trans ?_ (h.placed j)
    simp only [DispatchWorker.holds, Bool.false_eq_true, if_false] at hset
    simp only [setWorker, stations, List.map_append, List.map_cons, List.map_nil,
      List.count_append, List.count_singleton, beq_iff_eq] at hset ⊢
    split_ifs at hset ⊢ <;> omega
  · have hset := stations_set (DispatchWorker.calling j) .created hw
    have hold := h.called j
    simp only [DispatchWorker.calling, Bool.false_eq_true, if_false] at hset
    simp only [setWorker, stations, List.map_append, List.map_cons, List.map_nil,
      List.count_append, List.count_singleton, beq_iff_eq] at hset hold ⊢
    split_ifs at hset hold ⊢ <;> omega
  · dsimp only
    rw [Dict.get?_set, List.mem_append, List.mem_singleton, Prod.mk.injEq]
    split
    · rename_i hj
      subst hj
      constructor
      · intro hr
        exact .inr ⟨rfl, (Option.some.inj hr).symm⟩
      · rintro (hr | ⟨-, rfl⟩)
        · exact absurd (List.mem_map_of_mem hr) hnew
        · rfl
    · rename_i hj
      rw [h.answered]
      exact ⟨.inl, fun hr => hr.resolve_right fun hr => hj hr.1⟩

theorem step_returns {i : ℕ} {result : R} (hw : s.workers[w]? = some (.operating i)) :
    s.step (.returns w result) = some ({ s.setWorker w .created with
      results := s.results.set i result
      answers := s.answers ++ [(i, result)] }.takeNext w) := by
  simp only [step, hw, WorkerPool.takeNext, setWorker, List.set_set]

/-- A worker raises what its operation raised, or the cancellation. -/
theorem Placed.fail (h : Placed s) (hw : s.workers[w]? = some a) (error : DispatchError E) :
    Placed { s.fail w error with lost := s.lost ++ [a] } := by
  have hreturned : error.ending ≠ .returned := by cases error <;> exact nofun
  have hholds : ∀ i, error.ending.holds i = false := fun i => by cases error <;> rfl
  have hcalling : ∀ i, error.ending.calling i = false := fun i => by cases error <;> rfl
  refine ⟨List.length_set.trans h.size, h.next, fun i => ?_, fun i => ?_, h.answered,
    fun hr => h.finished ((List.mem_or_eq_of_mem_set hr).resolve_right hreturned.symm),
    fun _ hnil => absurd hnil (by simp [WorkerPool.fail])⟩
  · exact (congrArg (· + _) (stations_lose _ hw (hholds i))).trans (h.placed i)
  · exact (h.called i).trans (congrArg (· + _) (stations_lose _ hw (hcalling i)).symm)

/-- A worker that has an index calls its operation. -/
theorem Placed.call {i : ℕ} (h : Placed s) (hw : s.workers[w]? = some (.awaiting i)) :
    Placed { s.setWorker w (.operating i) with calls := s.calls ++ [i] } := by
  refine ⟨List.length_set.trans h.size, h.next, fun j => ?_, fun j => ?_, h.answered,
    fun hr => h.finished ((List.mem_or_eq_of_mem_set hr).resolve_right nofun),
    h.failed_set nofun nofun⟩
  · have hset := stations_set (DispatchWorker.holds j) (.operating i) hw
    have hsame : (DispatchWorker.operating i).holds j = (DispatchWorker.awaiting i).holds j := rfl
    rw [hsame, Nat.add_right_cancel_iff] at hset
    exact (congrArg (· + _) hset).trans (h.placed j)
  · have hset := stations_set (DispatchWorker.calling j) (.operating i) hw
    have hold := h.called j
    simp only [DispatchWorker.calling, Bool.false_eq_true, if_false] at hset
    simp only [setWorker, stations, List.count_append, List.count_singleton, beq_iff_eq]
      at hset hold ⊢
    split_ifs at hset ⊢ <;> omega

/-- A worker that has not begun is cancelled. -/
theorem Placed.discard (h : Placed s) (hw : s.workers[w]? = some .created)
    (error : DispatchError E) : Placed (s.fail w error) := by
  have hlost := h.fail hw error
  refine ⟨hlost.size, hlost.next, fun i => ?_, fun i => ?_, hlost.answered, hlost.finished,
    fun _ hnil => absurd hnil (by simp [WorkerPool.fail])⟩
  · have := hlost.placed i
    rw [stations, ← List.append_assoc, List.countP_append, List.countP_singleton] at this
    exact this
  · have := hlost.called i
    rw [stations, ← List.append_assoc, List.countP_append, List.countP_singleton] at this
    exact this

/-! ## The counters -/

/-- The health tracker counts the workers in their loops, and the operations in progress are within
the limit. -/
structure Counted (s : WorkerPool A R E) : Prop where
  active : s.activeDispatchWorkers = s.workers.countP DispatchWorker.started
  bound : s.inProgress ≤ s.maxTasks
  direct : s.threaded = false → s.threads = 0

theorem Counted.takeNext (hactive : s.activeDispatchWorkers =
      s.workers.countP DispatchWorker.started + 1)
    (hbound : s.inProgress ≤ s.maxTasks) (hdirect : s.threaded = false → s.threads = 0)
    (hsize : s.workers.length = min s.maxTasks s.ordered.length)
    (hw : s.workers[w]? = some .created) : Counted (s.takeNext w) := by
  have hstarted := fun b => countP_set_add DispatchWorker.started b hw
  have hoperates := fun b => countP_set_add DispatchWorker.operates b hw
  simp only [DispatchWorker.started, DispatchWorker.operates, Bool.false_eq_true, if_false,
    Nat.add_zero] at hstarted hoperates
  have hlength := fun b => List.countP_le_length (p := DispatchWorker.operates)
    (l := s.workers.set w b)
  simp only [List.length_set, hsize] at hlength
  unfold WorkerPool.takeNext
  simp only [inProgress] at hbound
  split
  · split
    · refine ⟨?_, ?_, hdirect⟩
      · have := hstarted (.awaiting s.nextIndex)
        simp only [setWorker, if_true] at this ⊢
        omega
      · have := hoperates (.awaiting s.nextIndex)
        simp only [inProgress, setWorker, Bool.false_eq_true, if_false] at this ⊢
        omega
    · rename_i hthreaded
      refine ⟨?_, ?_, hdirect⟩
      · have := hstarted (.operating s.nextIndex)
        simp only [setWorker, if_true] at this ⊢
        omega
      · have := hlength (.operating s.nextIndex)
        have hzero := hdirect (by simpa using hthreaded)
        simp only [inProgress, setWorker]
        omega
  · refine ⟨?_, ?_, hdirect⟩
    · have := hstarted .returned
      simp only [setWorker, Bool.false_eq_true, if_false] at this ⊢
      omega
    · have := hoperates .returned
      simp only [inProgress, setWorker, Bool.false_eq_true, if_false] at this ⊢
      omega

/-! ## Every step -/

theorem placed_step (h : Placed s) (hs : s.step e = some t) : Placed t := by
  have hkeep : ∀ u : WorkerPool A R E, u.workers = s.workers → u.lost = s.lost →
      u.maxTasks = s.maxTasks → u.ordered = s.ordered → u.nextIndex = s.nextIndex →
      u.results = s.results → u.calls = s.calls → u.answers = s.answers →
      u.failures = s.failures → Placed u := by
    rintro ⟨⟩ rfl rfl rfl rfl rfl rfl rfl rfl rfl
    exact ⟨h.size, h.next, h.placed, h.called, h.answered, h.finished, h.failed⟩
  cases e with
  | begins w =>
    simp only [step] at hs
    split at hs
    · rename_i hw
      split at hs
      · cases hs
        exact h.discard hw _
      · cases hs
        refine Placed.takeNext ?_ hw
        exact hkeep _ rfl rfl rfl rfl rfl rfl rfl rfl rfl
    · cases hs
  | calls w =>
    simp only [step] at hs
    split at hs
    · rename_i i hw
      split at hs
      · cases hs
        exact h.call hw
      · cases hs
    · cases hs
  | returns w result =>
    cases hw : s.workers[w]? with
    | none => simp only [step, hw, reduceCtorEq] at hs
    | some a =>
      cases a with
      | operating i =>
        rw [step_returns hw, Option.some.injEq] at hs
        subst hs
        refine (h.answer hw).takeNext ?_
        exact List.getElem?_set_self (List.getElem?_eq_some_iff.mp hw).1
      | _ => simp only [step, hw, reduceCtorEq] at hs
  | raises w error leaving =>
    simp only [step] at hs
    split at hs
    · rename_i a hw
      split at hs
      · cases hs
      · cases hs
        have hfail := h.fail hw error
        exact ⟨hfail.size, hfail.next, hfail.placed, hfail.called, hfail.answered, hfail.finished,
          hfail.failed⟩
    · cases hs
  | threadEnds =>
    simp only [step] at hs
    split at hs
    · cases hs
    · cases hs
      exact hkeep _ rfl rfl rfl rfl rfl rfl rfl rfl rfl
  | wake asCancelled =>
    simp only [step] at hs
    repeat' split at hs
    all_goals first
      | cases hs
        exact hkeep _ rfl rfl rfl rfl rfl rfl rfl rfl rfl
      | cases hs
  | reap =>
    simp only [step] at hs
    repeat' split at hs
    all_goals first
      | cases hs
        exact hkeep _ rfl rfl rfl rfl rfl rfl rfl rfl rfl
      | cases hs
  | cancelCaller =>
    simp only [step] at hs
    split at hs
    all_goals first
      | cases hs
        exact hkeep _ rfl rfl rfl rfl rfl rfl rfl rfl rfl
      | cases hs

theorem counted_step (hp : Placed s) (h : Counted s) (hs : s.step e = some t) : Counted t := by
  obtain ⟨hactive, hbound, hdirect⟩ := h
  have hkeep : ∀ u : WorkerPool A R E, u.workers = s.workers → u.threads = s.threads →
      u.maxTasks = s.maxTasks → u.threaded = s.threaded →
      u.activeDispatchWorkers = s.activeDispatchWorkers → Counted u := by
    rintro ⟨⟩ rfl rfl rfl rfl rfl
    exact ⟨hactive, hbound, hdirect⟩
  cases e with
  | begins w =>
    simp only [step] at hs
    split at hs
    · rename_i hw
      split at hs
      · cases hs
        have hstarted := countP_set_add DispatchWorker.started .cancelled hw
        have hoperates := countP_set_add DispatchWorker.operates .cancelled hw
        simp only [DispatchWorker.started, DispatchWorker.operates, Bool.false_eq_true, if_false,
          Nat.add_zero] at hstarted hoperates
        refine ⟨hactive.trans hstarted.symm, ?_, hdirect⟩
        show (s.workers.set w .cancelled).countP DispatchWorker.operates + s.threads ≤ s.maxTasks
        rw [inProgress] at hbound
        omega
      · cases hs
        refine Counted.takeNext ?_ hbound hdirect hp.size hw
        exact congrArg (· + 1) hactive
    · cases hs
  | calls w =>
    simp only [step] at hs
    split at hs
    · rename_i i hw
      split at hs
      · rename_i hroom
        cases hs
        have hstarted := countP_set_add DispatchWorker.started (.operating i) hw
        have hoperates := countP_set_add DispatchWorker.operates (.operating i) hw
        simp only [DispatchWorker.started, DispatchWorker.operates, Bool.false_eq_true, if_false,
          if_true, Nat.add_zero, Nat.add_right_cancel_iff] at hstarted hoperates
        refine ⟨hactive.trans hstarted.symm, ?_, hdirect⟩
        simp only [inProgress, setWorker] at hroom ⊢
        omega
      · cases hs
    · cases hs
  | returns w result =>
    cases hw : s.workers[w]? with
    | none => simp only [step, hw, reduceCtorEq] at hs
    | some a =>
      cases a with
      | operating i =>
        rw [step_returns hw, Option.some.injEq] at hs
        subst hs
        have hstarted := countP_set_add DispatchWorker.started .created hw
        have hoperates := countP_set_add DispatchWorker.operates .created hw
        simp only [DispatchWorker.started, DispatchWorker.operates, Bool.false_eq_true, if_false,
          if_true, Nat.add_zero] at hstarted hoperates
        refine Counted.takeNext (hactive.trans hstarted.symm) ?_ hdirect ?_ ?_
        · simp only [inProgress, setWorker] at hbound ⊢
          omega
        · exact List.length_set.trans hp.size
        · exact List.getElem?_set_self (List.getElem?_eq_some_iff.mp hw).1
      | _ => simp only [step, hw, reduceCtorEq] at hs
  | raises w error leaving =>
    simp only [step] at hs
    split at hs
    · rename_i a hw
      split at hs
      · cases hs
      · rename_i hnot
        cases hs
        rw [not_or, not_and_or, not_or, Bool.not_eq_false] at hnot
        obtain ⟨hstart, hleft⟩ := hnot
        have hstop : error.ending.started = false := by cases error <;> rfl
        have hidle : error.ending.operates = false := by cases error <;> rfl
        have hstarted := countP_set_add DispatchWorker.started error.ending hw
        have hoperates := countP_set_add DispatchWorker.operates error.ending hw
        rw [hstop, hstart] at hstarted
        rw [hidle] at hoperates
        simp only [Bool.false_eq_true, if_false, if_true, Nat.add_zero] at hstarted hoperates
        refine ⟨?_, ?_, fun hd => ?_⟩
        · simp only [WorkerPool.fail, setWorker]
          omega
        · simp only [inProgress, WorkerPool.fail, setWorker] at hbound ⊢
          cases leaving with
          | false =>
            simp only [Bool.false_eq_true, if_false]
            omega
          | true =>
            have hop : a.operates = true := by simpa using (hleft.resolve_left (by simp)).1
            rw [hop] at hoperates
            simp only [if_true] at hoperates ⊢
            omega
        · cases leaving with
          | false => exact hdirect hd
          | true => exact absurd hd (hleft.resolve_left (by simp)).2
    · cases hs
  | threadEnds =>
    simp only [step] at hs
    split at hs
    · cases hs
    · cases hs
      refine ⟨hactive, ?_, fun hd => ?_⟩
      · simp only [inProgress] at hbound ⊢
        omega
      · have := hdirect hd
        dsimp only
        omega
  | wake asCancelled =>
    simp only [step] at hs
    repeat' split at hs
    all_goals first
      | cases hs
        exact hkeep _ rfl rfl rfl rfl rfl
      | cases hs
  | reap =>
    simp only [step] at hs
    repeat' split at hs
    all_goals first
      | cases hs
        exact hkeep _ rfl rfl rfl rfl rfl
      | cases hs
  | cancelCaller =>
    simp only [step] at hs
    split at hs
    all_goals first
      | cases hs
        exact hkeep _ rfl rfl rfl rfl rfl
      | cases hs

end WorkerPool
end
end Coalestra
