import Coalestra.Lib.Dict
import Coalestra.Lib.Runs

/-! # Single flight

`orchestration/singleflight.py`: callers reserve keys under the lock, one producer task per call runs
the factory over the keys the call reserved, and `_complete` settles them one critical section after
the other. Factories end with any mapping or exception, callers may be cancelled at every await,
producers are not cancelled. -/

namespace Coalestra
set_option autoImplicit false
set_option maxHeartbeats 250000

namespace SingleFlight

/-! ## State -/

/-- An `asyncio.Future` of the registry. Its key, its producer and the number of times a result was
set are recorded beside the outcome. -/
structure Future (K T E : Type) where
  key : K
  owner : ℕ
  outcome : Option (Except E T)
  completions : ℕ

/-- Where a `_produce` task stands. -/
inductive ProducerPhase (K T E : Type) [DecidableEq K]
  | created
  | running
  | completing (outcome : Except E (Dict K T)) (rest : List K)
  | finished (outcome : Except E (Dict K T))

structure Producer (K T E : Type) [DecidableEq K] where
  caller : ℕ
  owned : List K
  phase : ProducerPhase K T E

/-- Where a `run_many` call stands. -/
inductive CallerPhase (K T E : Type)
  | locking
  | waiting
  | returned (results : List (K × T × Bool))
  | raised (error : E)
  | cancelled

/-- One `run_many` call: its keys without repetition and, once it held the lock, the future it took
for each of them with `joined_existing`. -/
structure Caller (K T E : Type) where
  keys : List K
  captured : List (K × ℕ × Bool)
  phase : CallerPhase K T E

structure State (K T E : Type) [DecidableEq K] where
  tasks : Dict K ℕ
  futures : List (Future K T E)
  producers : List (Producer K T E)
  callers : List (Caller K T E)

inductive Event (K T E : Type) [DecidableEq K]
  | runMany (keys : List K)
  | lock (c : ℕ)
  | start (p : ℕ)
  | produced (p : ℕ) (mapping : Dict K T)
  | fails (p : ℕ) (error : E)
  | complete (p : ℕ)
  | deliver (c : ℕ)
  | raise (c i : ℕ)
  | cancel (c : ℕ)

section
variable {K T E : Type} [DecidableEq K]

def State.empty : State K T E := ⟨.empty, [], [], []⟩

/-! ## Critical sections -/

/-- What the reservation loop of `run_many` has done. -/
structure Reservation (K T E : Type) [DecidableEq K] where
  tasks : Dict K ℕ
  futures : List (Future K T E)
  captured : List (K × ℕ × Bool)
  owned : List K

/-- One turn of the reservation loop. -/
def reserveKey (owner : ℕ) (r : Reservation K T E) (key : K) : Reservation K T E :=
  match r.tasks.get? key with
  | some future => { r with captured := r.captured ++ [(key, future, true)] }
  | none =>
    { tasks := r.tasks.set key r.futures.length
      futures := r.futures ++ [⟨key, owner, none, 0⟩]
      captured := r.captured ++ [(key, r.futures.length, false)]
      owned := r.owned ++ [key] }

def State.reserve (s : State K T E) (keys : List K) : Reservation K T E :=
  keys.foldl (reserveKey s.producers.length) ⟨s.tasks, s.futures, [], []⟩

/-- The critical section of `run_many` and the start of its producer task. -/
def State.lock (s : State K T E) (c : ℕ) (caller : Caller K T E) : State K T E :=
  let r := s.reserve caller.keys
  { tasks := r.tasks
    futures := r.futures
    producers :=
      if r.owned = [] then s.producers else s.producers ++ [⟨c, r.owned, .created⟩]
    callers := s.callers.set c { caller with captured := r.captured, phase := .waiting } }

/-- `future.set_result` or `future.set_exception`. -/
def Future.settle (f : Future K T E) (outcome : Except E T) : Future K T E :=
  { f with outcome := some outcome, completions := f.completions + 1 }

/-- `_complete`. -/
def State.settle (s : State K T E) (key : K) (outcome : Except E T) : State K T E :=
  match s.tasks.get? key with
  | none => s
  | some f =>
    let popped := { s with tasks := s.tasks.erase key }
    match s.futures[f]? with
    | none => popped
    | some future =>
      if future.outcome.isSome then popped
      else { popped with futures := s.futures.set f (future.settle outcome) }

/-- What `_complete` puts into the future of `key`. -/
def completionOf (omitted : List K → E) (outcome : Except E (Dict K T)) (key : K) : Except E T :=
  match outcome with
  | .ok produced => (produced.get? key).elim (.error (omitted [key])) .ok
  | .error error => .error error

/-- `_produce` refuses a mapping that omits owned keys. -/
def produceOutcome (omitted : List K → E) (owned : List K) (produced : Dict K T) :
    Except E (Dict K T) :=
  let missing := owned.filter fun key => decide (key ∉ produced.keys)
  if missing = [] then .ok produced else .error (omitted missing)

/-- The outcomes of the captured futures, once all have a result. -/
def gather (futures : List (Future K T E)) : List (K × ℕ × Bool) → Option (List (K × T × Bool))
  | [] => some []
  | (key, f, joined) :: rest =>
    match (futures[f]?).bind Future.outcome with
    | some (.ok value) => (gather futures rest).map fun results => (key, value, joined) :: results
    | _ => none

def State.setProducer (s : State K T E) (p : ℕ) (producer : Producer K T E)
    (phase : ProducerPhase K T E) : State K T E :=
  { s with producers := s.producers.set p { producer with phase := phase } }

def State.setCaller (s : State K T E) (c : ℕ) (caller : Caller K T E) (phase : CallerPhase K T E) :
    State K T E :=
  { s with callers := s.callers.set c { caller with phase := phase } }

/-! ## Steps -/

/-- The next step of a producer task. -/
def State.produce (omitted : List K → E) (s : State K T E) (p : ℕ) (producer : Producer K T E) :
    Event K T E → Option (State K T E)
  | .start _ =>
    match producer.phase with
    | .created => some (s.setProducer p producer .running)
    | _ => none
  | .produced _ mapping =>
    match producer.phase with
    | .running => some (s.setProducer p producer
        (.completing (produceOutcome omitted producer.owned mapping) producer.owned))
    | _ => none
  | .fails _ error =>
    match producer.phase with
    | .running => some (s.setProducer p producer (.completing (.error error) producer.owned))
    | _ => none
  | .complete _ =>
    match producer.phase with
    | .completing outcome [] => some (s.setProducer p producer (.finished outcome))
    | .completing outcome (key :: rest) =>
      some ((s.settle key (completionOf omitted outcome key)).setProducer p producer
        (if rest = [] then .finished outcome else .completing outcome rest))
    | _ => none
  | _ => none

/-- The next step of a call. `gather` raises the exception of a captured future as soon as there is
one, and returns when every captured future has a result. -/
def State.proceed (s : State K T E) (c : ℕ) (caller : Caller K T E) :
    Event K T E → Option (State K T E)
  | .lock _ =>
    match caller.phase with
    | .locking => some (s.lock c caller)
    | _ => none
  | .deliver _ =>
    match caller.phase with
    | .waiting => (gather s.futures caller.captured).map fun results =>
        s.setCaller c caller (.returned results)
    | _ => none
  | .raise _ i =>
    match caller.phase with
    | .waiting =>
      match ((caller.captured[i]?).bind fun entry => s.futures[entry.2.1]?).bind Future.outcome with
      | some (.error error) => some (s.setCaller c caller (.raised error))
      | _ => none
    | _ => none
  | .cancel _ =>
    match caller.phase with
    | .locking => some (s.setCaller c caller .cancelled)
    | .waiting => some (s.setCaller c caller .cancelled)
    | _ => none
  | _ => none

/-- The task a step belongs to. -/
inductive Task
  | caller (c : ℕ)
  | producer (p : ℕ)
  deriving DecidableEq

def Event.task : Event K T E → Option Task
  | .runMany _ => none
  | .lock c => some (.caller c)
  | .start p => some (.producer p)
  | .produced p _ => some (.producer p)
  | .fails p _ => some (.producer p)
  | .complete p => some (.producer p)
  | .deliver c => some (.caller c)
  | .raise c _ => some (.caller c)
  | .cancel c => some (.caller c)

def step (omitted : List K → E) (s : State K T E) (e : Event K T E) : Option (State K T E) :=
  match e with
  | .runMany keys =>
    let unique := Dict.fromKeys keys
    some { s with callers := s.callers ++
      [⟨unique, [], if unique = [] then .returned [] else .locking⟩] }
  | e =>
    match e.task with
    | some (.caller c) => (s.callers[c]?).bind fun caller => s.proceed c caller e
    | some (.producer p) => (s.producers[p]?).bind fun producer => s.produce omitted p producer e
    | none => none


/-! ## What holds at every moment -/

/-- The owned keys whose futures a producer still has to settle. -/
def Producer.pending (p : Producer K T E) : List K :=
  match p.phase with
  | .created => p.owned
  | .running => p.owned
  | .completing _ rest => rest
  | .finished _ => []

/-- How the factory of a producer ended. -/
def Producer.outcome (p : Producer K T E) : Option (Except E (Dict K T)) :=
  match p.phase with
  | .created => none
  | .running => none
  | .completing outcome _ => some outcome
  | .finished outcome => some outcome

/-- The call got past its critical section, or was cancelled. -/
def Caller.locked (c : Caller K T E) : Prop :=
  match c.phase with
  | .locking => False
  | _ => True

structure Producer.Sound (p : Producer K T E) : Prop where
  nodup : p.pending.Nodup
  owned : ∀ k ∈ p.pending, k ∈ p.owned
  produced : ∀ mapping, p.outcome = some (.ok mapping) → ∀ k ∈ p.owned, k ∈ mapping.keys

/-- A future is open, registered and awaits its producer, or its producer settled it once. -/
inductive FutureState (omitted : List K → E) (s : State K T E) (f : ℕ) (future : Future K T E)
    (p : Producer K T E) : Prop
  | unsettled : future.outcome = none → future.completions = 0 → future.key ∈ p.pending →
      s.tasks.get? future.key = some f → FutureState omitted s f future p
  | settled (outcome : Except E (Dict K T)) : p.outcome = some outcome →
      future.outcome = some (completionOf omitted outcome future.key) → future.completions = 1 →
      FutureState omitted s f future p

structure CallerSound (s : State K T E) (c : ℕ) (caller : Caller K T E) : Prop where
  nodup : caller.keys.Nodup
  captured : ∀ k f joined, (k, f, joined) ∈ caller.captured → ∃ future p,
    s.futures[f]? = some future ∧ future.key = k ∧ s.producers[future.owner]? = some p ∧
    (joined = false ↔ p.caller = c)
  ended : match caller.phase with
    | .locking => caller.captured = []
    | .waiting => caller.captured.map Prod.fst = caller.keys
    | .returned results => caller.captured.map Prod.fst = caller.keys ∧
        gather s.futures caller.captured = some results
    | .raised error => ∃ k f joined future, (k, f, joined) ∈ caller.captured ∧
        s.futures[f]? = some future ∧ future.outcome = some (.error error)
    | .cancelled => True

/-- Registry, futures, producers and calls fit together. -/
structure Sound (omitted : List K → E) (s : State K T E) : Prop where
  registered : ∀ k f, s.tasks.get? k = some f →
    ∃ future, s.futures[f]? = some future ∧ future.key = k ∧ future.outcome = none
  futures : ∀ (f : ℕ) future, s.futures[f]? = some future → ∃ p,
    s.producers[future.owner]? = some p ∧ future.key ∈ p.owned ∧ FutureState omitted s f future p
  producers : ∀ (i : ℕ) p, s.producers[i]? = some p → p.Sound ∧
    (∃ caller, s.callers[p.caller]? = some caller ∧ caller.locked) ∧
    ∀ k ∈ p.pending, ∃ f future, s.tasks.get? k = some f ∧ s.futures[f]? = some future ∧
      future.owner = i
  callers : ∀ (c : ℕ) caller, s.callers[c]? = some caller → CallerSound s c caller

/-- Futures and producers stay, with their keys, owners and callers, and outcomes are final. -/
structure Grows (s t : State K T E) : Prop where
  futures : ∀ (f : ℕ) future, s.futures[f]? = some future → ∃ future',
    t.futures[f]? = some future' ∧ future'.key = future.key ∧ future'.owner = future.owner ∧
    ∀ outcome, future.outcome = some outcome → future'.outcome = some outcome
  producers : ∀ (i : ℕ) p, s.producers[i]? = some p → ∃ p',
    t.producers[i]? = some p' ∧ p'.caller = p.caller

theorem gather_mono {s t : State K T E} (h : Grows s t) :
    ∀ {captured : List (K × ℕ × Bool)} {results : List (K × T × Bool)},
      gather s.futures captured = some results → gather t.futures captured = some results
  | [], _, hg => hg
  | (key, f, joined) :: rest, results, hg => by
      rw [gather] at hg ⊢
      cases hf : (s.futures[f]?).bind Future.outcome with
      | none => simp [hf] at hg
      | some outcome =>
        obtain ⟨future, hfuture, houtcome⟩ := Option.bind_eq_some_iff.mp hf
        obtain ⟨future', hfuture', _, _, hkeep⟩ := h.futures f future hfuture
        rw [hf] at hg
        rw [hfuture', Option.bind_some, hkeep outcome houtcome]
        cases outcome with
        | error error => cases hg
        | ok value =>
          obtain ⟨others, hothers, rfl⟩ := Option.map_eq_some_iff.mp hg
          simp only [gather_mono h hothers, Option.map_some]

theorem CallerSound.mono {s t : State K T E} {c : ℕ} {caller : Caller K T E}
    (h : CallerSound s c caller) (hgrow : Grows s t) : CallerSound t c caller where
  nodup := h.nodup
  captured := by
    intro k f joined hmem
    obtain ⟨future, p, hfuture, hkey, hp, hjoined⟩ := h.captured k f joined hmem
    obtain ⟨future', hfuture', hkey', howner, _⟩ := hgrow.futures f future hfuture
    obtain ⟨p', hp', hcaller⟩ := hgrow.producers _ p hp
    exact ⟨future', p', hfuture', hkey'.trans hkey, howner ▸ hp', by rw [hcaller]; exact hjoined⟩
  ended := by
    have hended := h.ended
    split
    · rename_i hphase
      rwa [hphase] at hended
    · rename_i hphase
      rwa [hphase] at hended
    · rename_i results hphase
      rw [hphase] at hended
      exact ⟨hended.1, gather_mono hgrow hended.2⟩
    · rename_i error hphase
      rw [hphase] at hended
      obtain ⟨k, f, joined, future, hmem, hfuture, houtcome⟩ := hended
      obtain ⟨future', hfuture', _, _, hkeep⟩ := hgrow.futures f future hfuture
      exact ⟨k, f, joined, future', hmem, hfuture', hkeep _ houtcome⟩
    · trivial

theorem Grows.of_eq {s t : State K T E} (hf : t.futures = s.futures)
    (hp : t.producers = s.producers) : Grows s t := by
  refine ⟨fun f future hfuture => ?_, fun i p hi => ?_⟩
  · exact ⟨future, by rw [hf]; exact hfuture, rfl, rfl, fun _ h => h⟩
  · exact ⟨p, by rw [hp]; exact hi, rfl⟩

theorem sound_empty (omitted : List K → E) : Sound omitted (State.empty : State K T E) where
  registered := fun k f h => by simp [State.empty] at h
  futures := fun f future h => by simp [State.empty] at h
  producers := fun i p h => by simp [State.empty] at h
  callers := fun c caller h => by simp [State.empty] at h

/-! ## Calls -/

section
variable {omitted : List K → E} {s : State K T E}

/-- A call that moves on, with what it captured, leaves the rest sound. -/
theorem Sound.setCaller (h : Sound omitted s) {c : ℕ} {caller : Caller K T E}
    {phase : CallerPhase K T E}
    (hsound : CallerSound s c { caller with phase := phase })
    (hlocked : ({ caller with phase := phase } : Caller K T E).locked) :
    Sound omitted (s.setCaller c caller phase) where
  registered := h.registered
  futures := by
    intro f future hf
    obtain ⟨p, hp, hkey, hstate⟩ := h.futures f future hf
    refine ⟨p, hp, hkey, ?_⟩
    cases hstate with
    | unsettled hnone hzero hpending htask => exact .unsettled hnone hzero hpending htask
    | settled outcome hout hset hone => exact .settled outcome hout hset hone
  producers := by
    intro i p hp
    obtain ⟨hps, ⟨other, hother, hol⟩, hpending⟩ := h.producers i p hp
    refine ⟨hps, ?_, hpending⟩
    rw [State.setCaller, List.getElem?_set]
    by_cases hc : c = p.caller
    · have hlt : c < s.callers.length := hc ▸ (List.getElem?_eq_some_iff.mp hother).1
      rw [if_pos hc, if_pos hlt]
      exact ⟨_, rfl, hlocked⟩
    · rw [if_neg hc]
      exact ⟨other, hother, hol⟩
  callers := by
    intro d other hd
    rw [State.setCaller, List.getElem?_set] at hd
    have hgrow : Grows s (s.setCaller c caller phase) := Grows.of_eq rfl rfl
    split at hd
    · rename_i hcd
      split at hd
      · rw [← Option.some.inj hd, ← hcd]
        exact hsound.mono hgrow
      · cases hd
    · exact (h.callers d other hd).mono hgrow

theorem Sound.runMany (h : Sound omitted s) (keys : List K) :
    Sound omitted { s with callers := s.callers ++ [⟨Dict.fromKeys keys, [],
      if Dict.fromKeys keys = [] then .returned [] else .locking⟩] } where
  registered := h.registered
  futures := by
    intro f future hf
    obtain ⟨p, hp, hkey, hstate⟩ := h.futures f future hf
    refine ⟨p, hp, hkey, ?_⟩
    cases hstate with
    | unsettled hnone hzero hpending htask => exact .unsettled hnone hzero hpending htask
    | settled outcome hout hset hone => exact .settled outcome hout hset hone
  producers := by
    intro i p hp
    obtain ⟨hps, ⟨other, hother, hol⟩, hpending⟩ := h.producers i p hp
    refine ⟨hps, ⟨other, ?_, hol⟩, hpending⟩
    rw [List.getElem?_append_left (List.getElem?_eq_some_iff.mp hother).1]
    exact hother
  callers := by
    intro d other hd
    simp only [List.getElem?_append] at hd
    split at hd
    · exact (h.callers d other hd).mono (Grows.of_eq rfl rfl)
    · rw [List.getElem?_singleton] at hd
      split at hd
      · rw [← Option.some.inj hd]
        refine ⟨Dict.nodup_fromKeys keys, fun k f joined hmem => by simp at hmem, ?_⟩
        by_cases hnil : Dict.fromKeys keys = []
        · simp only [hnil, if_true]
          exact ⟨rfl, rfl⟩
        · simp only [hnil, if_false]
      · cases hd

/-! ## Reservation -/

/-- The state of the reservation loop after the keys `done`. -/
structure Reserving (s : State K T E) (done : List K) (r : Reservation K T E) : Prop where
  old : ∀ (f : ℕ) future, s.futures[f]? = some future → r.futures[f]? = some future
  fresh : ∀ (f : ℕ) future, r.futures[f]? = some future → s.futures[f]? = some future ∨
    (future.owner = s.producers.length ∧ future.outcome = none ∧ future.completions = 0 ∧
      future.key ∈ r.owned ∧ r.tasks.get? future.key = some f)
  kept : ∀ k f, s.tasks.get? k = some f → r.tasks.get? k = some f
  registered : ∀ k f, r.tasks.get? k = some f → s.tasks.get? k = some f ∨ k ∈ r.owned
  owned : ∀ k ∈ r.owned, k ∈ done ∧ ∃ f future, r.tasks.get? k = some f ∧
    r.futures[f]? = some future ∧ future.key = k ∧ future.owner = s.producers.length ∧
    future.outcome = none
  nodup : r.owned.Nodup
  keys : r.captured.map Prod.fst = done
  captured : ∀ k f joined, (k, f, joined) ∈ r.captured →
    (joined = true ∧ s.tasks.get? k = some f) ∨
    (joined = false ∧ ∃ future, r.futures[f]? = some future ∧ future.key = k ∧
      future.owner = s.producers.length ∧ k ∈ r.owned)

theorem Reserving.turn {done : List K} {r : Reservation K T E} (h : Reserving s done r) {key : K}
    (hkey : key ∉ done) : Reserving s (done ++ [key]) (reserveKey s.producers.length r key) := by
  have hnotowned : key ∉ r.owned := fun hk => hkey (h.owned key hk).1
  unfold reserveKey
  cases htask : r.tasks.get? key with
  | some f =>
    have hold : s.tasks.get? key = some f :=
      (h.registered key f htask).resolve_right hnotowned
    refine ⟨h.old, h.fresh, h.kept, h.registered, ?_, h.nodup, ?_, ?_⟩
    · intro k hk
      obtain ⟨hdone, hrest⟩ := h.owned k hk
      exact ⟨List.mem_append_left _ hdone, hrest⟩
    · simp [h.keys]
    · intro k g joined hmem
      rcases List.mem_append.mp hmem with hmem | hmem
      · exact h.captured k g joined hmem
      · rw [List.mem_singleton, Prod.mk.injEq, Prod.mk.injEq] at hmem
        obtain ⟨rfl, rfl, rfl⟩ := hmem
        exact .inl ⟨rfl, hold⟩
  | none =>
    have hlast : (r.futures ++ [⟨key, s.producers.length, none, 0⟩])[r.futures.length]? =
        some (⟨key, s.producers.length, none, 0⟩ : Future K T E) := List.getElem?_concat_length
    have hleft : ∀ (f : ℕ) future, r.futures[f]? = some future →
        (r.futures ++ [⟨key, s.producers.length, none, 0⟩])[f]? = some future := by
      intro f future hf
      rw [List.getElem?_append_left (List.getElem?_eq_some_iff.mp hf).1]
      exact hf
    have hset : ∀ k f, k ≠ key → r.tasks.get? k = some f →
        (r.tasks.set key r.futures.length).get? k = some f := by
      intro k f hk hf
      rw [Dict.get?_set_ne _ _ hk]
      exact hf
    refine ⟨fun f future hf => hleft f future (h.old f future hf), ?_, ?_, ?_, ?_, ?_, ?_, ?_⟩
    · intro f future hf
      simp only [List.getElem?_append] at hf
      split at hf
      · rcases h.fresh f future hf with hold | ⟨howner, hopen, hzero, hmem, htask'⟩
        · exact .inl hold
        · have hne : future.key ≠ key := fun e => hnotowned (e ▸ hmem)
          exact .inr ⟨howner, hopen, hzero, List.mem_append_left _ hmem, hset _ _ hne htask'⟩
      · rename_i hge
        rw [List.getElem?_singleton] at hf
        split at hf
        · rename_i hzero
          have hf' : f = r.futures.length := by omega
          rw [← Option.some.inj hf, hf']
          exact .inr ⟨rfl, rfl, rfl, List.mem_append_right _ (List.mem_singleton_self _),
            Dict.get?_set_self _ _ _⟩
        · cases hf
    · intro k f hk
      refine hset k f ?_ (h.kept k f hk)
      rintro rfl
      rw [h.kept k f hk] at htask
      cases htask
    · intro k f hk
      rw [Dict.get?_set] at hk
      by_cases hkk : k = key
      · exact .inr (List.mem_append_right _ (by simp [hkk]))
      · rw [if_neg hkk] at hk
        exact (h.registered k f hk).imp id (List.mem_append_left _)
    · intro k hk
      rcases List.mem_append.mp hk with hk | hk
      · obtain ⟨hdone, f, future, htask', hfuture, hrest⟩ := h.owned k hk
        have hne : k ≠ key := fun e => hnotowned (e ▸ hk)
        exact ⟨List.mem_append_left _ hdone, f, future, hset _ _ hne htask', hleft _ _ hfuture,
          hrest⟩
      · rw [List.mem_singleton] at hk
        subst hk
        exact ⟨List.mem_append_right _ (List.mem_singleton_self _), _, _, Dict.get?_set_self _ _ _,
          hlast, rfl, rfl, rfl⟩
    · exact List.nodup_append.mpr ⟨h.nodup, by simp, by
        intro a ha b hb hab
        rw [List.mem_singleton] at hb
        exact hnotowned (hb ▸ hab ▸ ha)⟩
    · simp [h.keys]
    · intro k g joined hmem
      rcases List.mem_append.mp hmem with hmem | hmem
      · rcases h.captured k g joined hmem with hold | ⟨hj, future, hfuture, hk, howner, hown⟩
        · exact .inl hold
        · exact .inr ⟨hj, future, hleft _ _ hfuture, hk, howner, List.mem_append_left _ hown⟩
      · rw [List.mem_singleton, Prod.mk.injEq, Prod.mk.injEq] at hmem
        obtain ⟨rfl, rfl, rfl⟩ := hmem
        exact .inr ⟨rfl, _, hlast, rfl, rfl, List.mem_append_right _ (List.mem_singleton_self _)⟩

theorem Reserving.loop : ∀ {keys done : List K} {r : Reservation K T E}, Reserving s done r →
    (done ++ keys).Nodup →
    Reserving s (done ++ keys) (keys.foldl (reserveKey s.producers.length) r)
  | [], done, r, h, _ => by
      rw [List.append_nil]
      exact h
  | key :: keys, done, r, h, hnodup => by
      rw [List.foldl_cons]
      have hkey : key ∉ done := by
        intro hk
        exact (List.nodup_append.mp hnodup).2.2 key hk key List.mem_cons_self rfl
      have hassoc : done ++ key :: keys = (done ++ [key]) ++ keys := by simp
      rw [hassoc] at hnodup ⊢
      exact Reserving.loop (h.turn hkey) hnodup

theorem reserving (s : State K T E) {keys : List K} (hnodup : keys.Nodup) :
    Reserving s keys (s.reserve keys) := by
  have hstart : Reserving s [] ⟨s.tasks, s.futures, [], []⟩ :=
    ⟨fun _ _ hf => hf, fun _ _ hf => .inl hf, fun _ _ hk => hk, fun _ _ hk => .inl hk,
      fun k hk => by simp at hk, List.nodup_nil, rfl, fun k f joined hmem => by simp at hmem⟩
  exact hstart.loop (by simpa using hnodup)

/-- The critical section of a call, with the start of its producer. -/
theorem Sound.lock (h : Sound omitted s) {c : ℕ} {caller : Caller K T E}
    (hc : s.callers[c]? = some caller) (hphase : caller.phase = .locking) :
    Sound omitted (s.lock c caller) := by
  have hcaller := h.callers c caller hc
  have hr := reserving s hcaller.nodup
  generalize hres : s.reserve caller.keys = r at hr
  have hlt : c < s.callers.length := (List.getElem?_eq_some_iff.mp hc).1
  -- Nobody has a producer for this call yet.
  have hnone : ∀ (i : ℕ) p, s.producers[i]? = some p → p.caller ≠ c := by
    intro i p hp heq
    obtain ⟨_, ⟨other, hother, hlocked⟩, _⟩ := h.producers i p hp
    rw [heq, hc, Option.some.injEq] at hother
    subst hother
    unfold Caller.locked at hlocked
    rw [hphase] at hlocked
    exact hlocked
  have hproducers : (s.lock c caller).producers =
      if r.owned = [] then s.producers else s.producers ++ [⟨c, r.owned, .created⟩] := by
    rw [State.lock, hres]
  have hold : ∀ (i : ℕ) p, s.producers[i]? = some p →
      (s.lock c caller).producers[i]? = some p := by
    intro i p hp
    rw [hproducers]
    split
    · exact hp
    · rw [List.getElem?_append_left (List.getElem?_eq_some_iff.mp hp).1]
      exact hp
  have hnew : ∀ k ∈ r.owned, (s.lock c caller).producers[s.producers.length]? =
      some ⟨c, r.owned, .created⟩ := by
    intro k hk
    rw [hproducers, if_neg (List.ne_nil_of_mem hk)]
    exact List.getElem?_concat_length
  have hcases : ∀ (i : ℕ) p, (s.lock c caller).producers[i]? = some p →
      s.producers[i]? = some p ∨ (i = s.producers.length ∧ p = ⟨c, r.owned, .created⟩) := by
    intro i p hp
    rw [hproducers] at hp
    split at hp
    · exact .inl hp
    · rw [List.getElem?_append] at hp
      split at hp
      · exact .inl hp
      · rename_i hge
        rw [List.getElem?_singleton] at hp
        split at hp
        · exact .inr ⟨by omega, (Option.some.inj hp).symm⟩
        · cases hp
  have htasks : (s.lock c caller).tasks = r.tasks := by rw [State.lock, hres]
  have hfutures : (s.lock c caller).futures = r.futures := by rw [State.lock, hres]
  have hcallers : (s.lock c caller).callers =
      s.callers.set c { caller with captured := r.captured, phase := .waiting } := by
    rw [State.lock, hres]
  have hgrow : Grows s (s.lock c caller) := by
    refine ⟨fun f future hf => ⟨future, by rw [hfutures]; exact hr.old f future hf, rfl, rfl,
      fun _ ho => ho⟩, fun i p hp => ⟨p, hold i p hp, rfl⟩⟩
  refine ⟨?_, ?_, ?_, ?_⟩
  · intro k f hk
    rw [htasks] at hk
    rw [hfutures]
    rcases hr.registered k f hk with hk' | hk'
    · obtain ⟨future, hf, hkey, hopen⟩ := h.registered k f hk'
      exact ⟨future, hr.old f future hf, hkey, hopen⟩
    · obtain ⟨_, g, future, hg, hf, hkey, _, hopen⟩ := hr.owned k hk'
      rw [hk, Option.some.injEq] at hg
      exact ⟨future, hg ▸ hf, hkey, hopen⟩
  · intro f future hf
    rw [hfutures] at hf
    rcases hr.fresh f future hf with hf' | ⟨howner, hopen, hzero, hown, htask⟩
    · obtain ⟨p, hp, hkey, hstate⟩ := h.futures f future hf'
      refine ⟨p, hold _ _ hp, hkey, ?_⟩
      cases hstate with
      | unsettled hnone hzero hpending htask =>
        exact .unsettled hnone hzero hpending (by rw [htasks]; exact hr.kept _ _ htask)
      | settled outcome hout hset hone => exact .settled outcome hout hset hone
    · have hpending : future.key ∈ (⟨c, r.owned, .created⟩ : Producer K T E).pending := hown
      refine ⟨_, howner ▸ hnew _ hown, hown, .unsettled hopen hzero hpending ?_⟩
      rw [htasks]
      exact htask
  · intro i p hp
    have hlocked : ∃ other, (s.lock c caller).callers[c]? = some other ∧ other.locked := by
      rw [hcallers, List.getElem?_set_self hlt]
      exact ⟨_, rfl, trivial⟩
    rcases hcases i p hp with hp' | ⟨rfl, rfl⟩
    · obtain ⟨hps, ⟨other, hother, hol⟩, hpending⟩ := h.producers i p hp'
      refine ⟨hps, ⟨other, ?_, hol⟩, fun k hk => ?_⟩
      · rw [hcallers, List.getElem?_set_ne (hnone i p hp').symm]
        exact hother
      · obtain ⟨f, future, htask, hf, howner⟩ := hpending k hk
        exact ⟨f, future, by rw [htasks]; exact hr.kept k f htask,
          by rw [hfutures]; exact hr.old f future hf, howner⟩
    · refine ⟨⟨hr.nodup, fun k hk => hk, fun mapping hout => by cases hout⟩, hlocked,
        fun k hk => ?_⟩
      obtain ⟨_, f, future, htask, hf, _, howner, _⟩ := hr.owned k hk
      exact ⟨f, future, by rw [htasks]; exact htask, by rw [hfutures]; exact hf, howner⟩
  · intro d other hd
    rw [hcallers, List.getElem?_set] at hd
    split at hd
    · rename_i hcd
      rw [Option.some.injEq] at hd
      subst hcd hd
      refine ⟨hcaller.nodup, fun k f joined hmem => ?_, hr.keys⟩
      rcases hr.captured k f joined hmem with ⟨rfl, htask⟩ | ⟨rfl, future, hf, hk, howner, hown⟩
      · obtain ⟨future, hf, hkey, _⟩ := h.registered k f htask
        obtain ⟨p, hp, _, _⟩ := h.futures f future hf
        refine ⟨future, p, by rw [hfutures]; exact hr.old f future hf, hkey, hold _ _ hp, ?_⟩
        simp [hnone _ _ hp]
      · refine ⟨future, _, by rw [hfutures]; exact hf, hk, howner ▸ hnew k hown, ?_⟩
        simp
    · exact (h.callers d other hd).mono hgrow

/-! ## Producers -/

theorem State.setProducer_get? {i : ℕ} {p : Producer K T E} (hi : s.producers[i]? = some p)
    (phase : ProducerPhase K T E) (j : ℕ) : (s.setProducer i p phase).producers[j]? =
      if j = i then some { p with phase := phase } else s.producers[j]? := by
  rw [State.setProducer, List.getElem?_set]
  have hlt : i < s.producers.length := (List.getElem?_eq_some_iff.mp hi).1
  by_cases h : i = j
  · simp [h, h ▸ hlt]
  · have h' : ¬ j = i := fun e => h e.symm
    simp [h, h']

theorem Grows.setProducer {i : ℕ} {p : Producer K T E} (hi : s.producers[i]? = some p)
    (phase : ProducerPhase K T E) : Grows s (s.setProducer i p phase) := by
  refine ⟨fun f future hf => ⟨future, hf, rfl, rfl, fun _ ho => ho⟩, fun j q hq => ?_⟩
  rw [State.setProducer_get? hi]
  by_cases hj : j = i
  · subst hj
    rw [hi, Option.some.injEq] at hq
    subst hq
    exact ⟨_, if_pos rfl, rfl⟩
  · exact ⟨q, by rw [if_neg hj]; exact hq, rfl⟩

/-- A producer moves on before it settles anything. -/
theorem Sound.setProducer (h : Sound omitted s) {i : ℕ} {p : Producer K T E}
    (hi : s.producers[i]? = some p) {phase : ProducerPhase K T E}
    (hkeep : ∀ outcome, p.outcome = some outcome →
      ({ p with phase := phase } : Producer K T E).outcome = some outcome)
    (hpending : ({ p with phase := phase } : Producer K T E).pending = p.pending)
    (hproduced : ∀ mapping, ({ p with phase := phase } : Producer K T E).outcome =
      some (.ok mapping) → ∀ k ∈ p.owned, k ∈ mapping.keys) :
    Sound omitted (s.setProducer i p phase) := by
  obtain ⟨hsound, hlocked, hown⟩ := h.producers i p hi
  refine ⟨h.registered, ?_, ?_, fun c caller hc => (h.callers c caller hc).mono
    (Grows.setProducer hi phase)⟩
  · intro f future hf
    obtain ⟨q, hq, hkey, hstate⟩ := h.futures f future hf
    by_cases howner : future.owner = i
    · rw [howner, hi, Option.some.injEq] at hq
      subst hq
      refine ⟨{ p with phase := phase }, by rw [State.setProducer_get? hi, if_pos howner], hkey,
        ?_⟩
      cases hstate with
      | unsettled hopen hzero hmem htask => exact .unsettled hopen hzero (hpending ▸ hmem) htask
      | settled outcome hout hset hone => exact .settled outcome (hkeep outcome hout) hset hone
    · refine ⟨q, by rw [State.setProducer_get? hi, if_neg howner]; exact hq, hkey, ?_⟩
      cases hstate with
      | unsettled hopen hzero hmem htask => exact .unsettled hopen hzero hmem htask
      | settled outcome hout hset hone => exact .settled outcome hout hset hone
  · intro j q hq
    rw [State.setProducer_get? hi] at hq
    split at hq
    · rename_i hj
      rw [← Option.some.inj hq, hj]
      refine ⟨⟨?_, ?_, hproduced⟩, hlocked, ?_⟩
      · rw [hpending]
        exact hsound.nodup
      · rw [hpending]
        exact hsound.owned
      · rw [hpending]
        exact hown
    · exact h.producers j q hq

/-- `_complete` finds the future the producer owns and settles it. -/
theorem settle_eq (h : Sound omitted s) {i : ℕ} {p : Producer K T E}
    (hi : s.producers[i]? = some p) {key : K} (hkey : key ∈ p.pending) (outcome : Except E T) :
    ∃ f future, s.tasks.get? key = some f ∧ s.futures[f]? = some future ∧ future.key = key ∧
      future.owner = i ∧ future.outcome = none ∧
      s.settle key outcome =
        { s with tasks := s.tasks.erase key, futures := s.futures.set f (future.settle outcome) } := by
  obtain ⟨_, _, hown⟩ := h.producers i p hi
  obtain ⟨f, future, htask, hf, howner⟩ := hown key hkey
  obtain ⟨future', hf', hkey', hopen⟩ := h.registered key f htask
  rw [hf, Option.some.injEq] at hf'
  subst hf'
  refine ⟨f, future, htask, hf, hkey', howner, hopen, ?_⟩
  simp [State.settle, htask, hf, hopen]

/-- One `_complete` of a producer. -/
theorem Sound.complete (h : Sound omitted s) {i : ℕ} {p : Producer K T E}
    (hi : s.producers[i]? = some p) {outcome : Except E (Dict K T)} {key : K} {rest : List K}
    (hphase : p.phase = .completing outcome (key :: rest)) :
    Sound omitted ((s.settle key (completionOf omitted outcome key)).setProducer i p
      (if rest = [] then .finished outcome else .completing outcome rest)) := by
  obtain ⟨hsound, hlocked, hown⟩ := h.producers i p hi
  have hpend : p.pending = key :: rest := by rw [Producer.pending, hphase]
  have hout : p.outcome = some outcome := by rw [Producer.outcome, hphase]
  obtain ⟨hnotin, hrestnodup⟩ := List.nodup_cons.mp (hpend ▸ hsound.nodup)
  obtain ⟨f, future, htask, hf, hfkey, howner, hopen, hsettle⟩ :=
    settle_eq h hi (hpend ▸ List.mem_cons_self) (completionOf omitted outcome key)
  generalize hnext : (if rest = [] then ProducerPhase.finished outcome
    else .completing outcome rest) = next
  have hnextpending : ({ p with phase := next } : Producer K T E).pending = rest := by
    rw [← hnext, Producer.pending]
    by_cases hnil : rest = []
    · simp [hnil]
    · simp [hnil]
  have hnextout : ({ p with phase := next } : Producer K T E).outcome = some outcome := by
    rw [← hnext, Producer.outcome]
    by_cases hnil : rest = []
    · simp [hnil]
    · simp [hnil]
  rw [hsettle]
  generalize hfut : future.settle (completionOf omitted outcome key) = done
  generalize hmid : ({ s with tasks := s.tasks.erase key, futures := s.futures.set f done } :
    State K T E) = mid
  have hmidtasks : mid.tasks = s.tasks.erase key := by rw [← hmid]
  have hmidfutures : mid.futures = s.futures.set f done := by rw [← hmid]
  have hmidproducers : mid.producers = s.producers := by rw [← hmid]
  have hmidcallers : mid.callers = s.callers := by rw [← hmid]
  have hmidi : mid.producers[i]? = some p := by rw [hmidproducers]; exact hi
  have hflt : f < s.futures.length := (List.getElem?_eq_some_iff.mp hf).1
  -- A future of another key is another future.
  have hother : ∀ (g : ℕ) other, s.futures[g]? = some other → other.key ≠ key → f ≠ g := by
    intro g other hg hne hfg
    rw [← hfg, hf, Option.some.injEq] at hg
    exact hne (hg ▸ hfkey)
  have hgrow : Grows s (mid.setProducer i p next) := by
    have hlast := Grows.setProducer hmidi next
    refine ⟨fun g other hg => ?_, fun j q hq => hlast.producers j q (by rw [hmidproducers]; exact hq)⟩
    by_cases hfg : f = g
    · subst hfg
      rw [hf, Option.some.injEq] at hg
      subst hg
      refine ⟨done, ?_, by rw [← hfut]; rfl, by rw [← hfut]; rfl, fun o ho => ?_⟩
      · change mid.futures[f]? = _
        rw [hmidfutures, List.getElem?_set_self hflt]
      · rw [hopen] at ho
        cases ho
    · refine ⟨other, ?_, rfl, rfl, fun _ ho => ho⟩
      change mid.futures[g]? = _
      rw [hmidfutures, List.getElem?_set_ne hfg]
      exact hg
  refine ⟨?_, ?_, ?_, ?_⟩
  · intro k g hk
    change mid.tasks.get? k = some g at hk
    rw [hmidtasks, Dict.get?_erase] at hk
    split at hk
    · cases hk
    · rename_i hne
      obtain ⟨other, hg, hok, hoo⟩ := h.registered k g hk
      refine ⟨other, ?_, hok, hoo⟩
      change mid.futures[g]? = _
      rw [hmidfutures, List.getElem?_set_ne (hother g other hg (hok.trans_ne hne))]
      exact hg
  · intro g other hg
    change mid.futures[g]? = some other at hg
    rw [hmidfutures, List.getElem?_set] at hg
    split at hg
    · rename_i hfg
      rw [Option.some.injEq] at hg
      subst hg hfut
      obtain ⟨q, hq, hqkey, hstate⟩ := h.futures f future hf
      rw [howner, hi, Option.some.injEq] at hq
      subst hq
      refine ⟨{ p with phase := next }, ?_, hqkey, ?_⟩
      · change (mid.setProducer i p next).producers[future.owner]? = _
        rw [State.setProducer_get? hmidi, if_pos howner]
      refine .settled outcome hnextout (by rw [← hfkey]; rfl) ?_
      cases hstate with
      | unsettled _ hzero _ _ => rw [Future.settle, hzero]
      | settled _ _ hset _ => rw [hopen] at hset; cases hset
    · rename_i hfg
      obtain ⟨q, hq, hqkey, hstate⟩ := h.futures g other hg
      have hne : ∀ {g' : ℕ}, s.tasks.get? other.key = some g' → g' = g → other.key ≠ key := by
        intro g' hg' hgg hk
        rw [hk, htask, Option.some.injEq] at hg'
        exact hfg (hg'.trans hgg)
      by_cases how : other.owner = i
      · rw [how, hi, Option.some.injEq] at hq
        subst hq
        refine ⟨{ p with phase := next }, by rw [State.setProducer_get? hmidi, if_pos how], hqkey,
          ?_⟩
        cases hstate with
        | unsettled hnone hzero hmem hreg =>
          have hkk := hne hreg rfl
          refine .unsettled hnone hzero ?_ ?_
          · rw [hnextpending]
            rw [hpend, List.mem_cons] at hmem
            exact hmem.resolve_left hkk
          · change mid.tasks.get? other.key = _
            rw [hmidtasks, Dict.get?_erase_ne _ hkk]
            exact hreg
        | settled o ho hset hone =>
          exact .settled o (by rw [hnextout, ← hout]; exact ho) hset hone
      · refine ⟨q, by rw [State.setProducer_get? hmidi, if_neg how, hmidproducers]; exact hq, hqkey,
          ?_⟩
        cases hstate with
        | unsettled hnone hzero hmem hreg =>
          refine .unsettled hnone hzero hmem ?_
          change mid.tasks.get? other.key = _
          rw [hmidtasks, Dict.get?_erase_ne _ (hne hreg rfl)]
          exact hreg
        | settled o ho hset hone => exact .settled o ho hset hone
  · intro j q hq
    have hkeep : ∀ k g other, k ≠ key → s.tasks.get? k = some g → s.futures[g]? = some other →
        other.owner = j → ∃ g other, (mid.setProducer i p next).tasks.get? k = some g ∧
          (mid.setProducer i p next).futures[g]? = some other ∧ other.owner = j := by
      intro k g other hne hg ho hj
      obtain ⟨other', ho', hkey', _⟩ := h.registered k g hg
      rw [ho, Option.some.injEq] at ho'
      subst ho'
      refine ⟨g, other, ?_, ?_, hj⟩
      · change mid.tasks.get? k = _
        rw [hmidtasks, Dict.get?_erase_ne _ hne]
        exact hg
      · change mid.futures[g]? = _
        rw [hmidfutures, List.getElem?_set_ne (hother g other ho (hkey'.trans_ne hne))]
        exact ho
    rw [State.setProducer_get? hmidi] at hq
    split at hq
    · rename_i hj
      rw [← Option.some.inj hq]
      refine ⟨⟨?_, ?_, ?_⟩, ?_, ?_⟩
      · rw [hnextpending]
        exact hrestnodup
      · rw [hnextpending]
        exact fun k hk => hsound.owned k (hpend ▸ List.mem_cons_of_mem _ hk)
      · rw [hnextout, ← hout]
        exact hsound.produced
      · change ∃ caller, mid.callers[p.caller]? = some caller ∧ caller.locked
        rw [hmidcallers]
        exact hlocked
      · rw [hnextpending]
        intro k hk
        obtain ⟨g, other, hg, ho, hoi⟩ := hown k (hpend ▸ List.mem_cons_of_mem _ hk)
        have hne : k ≠ key := fun e => hnotin (e ▸ hk)
        exact hkeep k g other hne hg ho (hoi.trans hj.symm)
    · rename_i hj
      rw [hmidproducers] at hq
      obtain ⟨hqs, hql, hqo⟩ := h.producers j q hq
      refine ⟨hqs, ?_, fun k hk => ?_⟩
      · change ∃ caller, mid.callers[q.caller]? = some caller ∧ caller.locked
        rw [hmidcallers]
        exact hql
      · obtain ⟨g, other, hg, ho, hoj⟩ := hqo k hk
        have hne : k ≠ key := by
          rintro rfl
          rw [htask, Option.some.injEq] at hg
          rw [← hg, hf, Option.some.injEq] at ho
          exact hj (hoj.symm.trans (ho ▸ howner))
        exact hkeep k g other hne hg ho hoj
  · intro c caller hc
    change mid.callers[c]? = some caller at hc
    rw [hmidcallers] at hc
    exact (h.callers c caller hc).mono hgrow

end

end
end SingleFlight
end Coalestra
