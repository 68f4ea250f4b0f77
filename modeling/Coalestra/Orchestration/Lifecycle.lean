import Coalestra.Lib.Dict
import Mathlib.Data.Rat.Defs
import Mathlib.Algebra.Order.Ring.Rat

/-! # Shutting a builder down

`orchestration/lifecycle.py` and `SnapshotBuilder.aclose` with its helpers. Components are known by
their identity, so the same object can stand in several places; what each call answers is a
parameter. A run records the calls it makes in order, and what it raises is raised after all of
them.

The phases do not disturb each other: a failing phase is noted and the next one begins. Inside the
component phase nothing is noted: the loop of `close_components` stops at the first component that
raises, and the components behind it are never closed. -/

namespace Coalestra
set_option autoImplicit false
set_option maxHeartbeats 250000

/-- The exceptions of a shutdown. -/
inductive ShutdownError
  | payloadCopyTimeout (timeoutSeconds : ℚ) (activeComponents : List (String × ℕ))
  | observabilityTimeout (timeoutSeconds : ℚ) (pendingComponents : List (String × ℕ))
  | other (typeName : String)
  deriving DecidableEq, Repr

/-- `PayloadCopyShutdownTimeoutError.active_copies`. -/
def activeCopies (activeComponents : List (String × ℕ)) : ℕ := (activeComponents.map Prod.snd).sum

/-- The two methods `close_component` looks for. -/
inductive CloseMethod
  | aclose
  | close
  deriving DecidableEq, Repr

inductive ShutdownPhase
  | refreshes
  | payloadCopies
  | components
  | observabilityBuffers
  | observabilityDownstreams
  deriving DecidableEq, Repr

/-- What a shutdown does to the outside, in order. -/
inductive ShutdownEvent (O : Type)
  | begins (phase : ShutdownPhase)
  | closesRefreshes (cancel : Bool)
  | drainsCopies (owner : String) (timeoutSeconds : ℚ)
  | closes (phase : ShutdownPhase) (component : O) (method : CloseMethod)
  | closesBuffer (name : String) (timeoutSeconds : ℚ) (drain : Bool)
  | fails (phase : ShutdownPhase) (error : ShutdownError)
  deriving DecidableEq, Repr

/-- The method of a component that `close_component` calls, from which of the two are callable. -/
def closeMethod (acloseCallable closeCallable : Bool) : Option CloseMethod :=
  if acloseCallable then some .aclose else if closeCallable then some .close else none

/-- The fields of a builder that its shutdown reads; `methods` says what an object offers. -/
structure ClosableBuilder (O : Type) where
  sources : List O
  cache : O
  ownsCache : Bool
  exposesPayloadCopyLifecycle : Bool
  payloadCopyLifecycleIsCompleteClose : Bool
  aclosePayloadCopiesCallable : Bool
  manageLifecycle : Bool
  ownedObservabilityBuffers : List String
  eventsDownstream : O
  metricsDownstream : O
  observabilityDownstreamsClosed : Bool
  copyShutdownTimeoutSeconds : ℚ
  observabilityShutdownTimeoutSeconds : ℚ
  observabilityDrainOnShutdown : Bool
  closing : Bool
  closed : Bool
  methods : O → Option CloseMethod

/-- What the calls of a shutdown answer: the exception of each, if any. -/
structure ShutdownAnswers (O : Type) where
  refreshes : Option ShutdownError
  isolator : Option ShutdownError
  cacheCopies : Option ShutdownError
  component : O → Option ShutdownError
  buffer : String → Except ShutdownError Bool
  pendingOf : String → ℕ
  downstream : O → Option ShutdownError

/-- What is left of a shutdown: its calls, what it raised after them and the builder. -/
structure Shutdown (O : Type) where
  events : List (ShutdownEvent O)
  raised : Option ShutdownError
  builder : ClosableBuilder O

section
variable {O : Type} [DecidableEq O]

/-! ## The phases -/

/-- `close_component`: the call it makes and what that raises. -/
def closeComponent (phase : ShutdownPhase) (methods : O → Option CloseMethod)
    (raises : O → Option ShutdownError) (component : O) :
    List (ShutdownEvent O) × Option ShutdownError :=
  match methods component with
  | some method => ([.closes phase component method], raises component)
  | none => ([], none)

/-- The loop of `close_components` with the identities it has seen. -/
def closeComponentsFrom (phase : ShutdownPhase) (methods : O → Option CloseMethod)
    (raises : O → Option ShutdownError) (seen : List O) :
    List O → List (ShutdownEvent O) × Option ShutdownError
  | [] => ([], none)
  | component :: rest =>
    if component ∈ seen then closeComponentsFrom phase methods raises seen rest
    else
      let closed := closeComponent phase methods raises component
      match closed.2 with
      | some error => (closed.1, some error)
      | none =>
        let others := closeComponentsFrom phase methods raises (component :: seen) rest
        (closed.1 ++ others.1, others.2)

/-- `close_components`. -/
def closeComponents (phase : ShutdownPhase) (methods : O → Option CloseMethod)
    (raises : O → Option ShutdownError) (components : List O) :
    List (ShutdownEvent O) × Option ShutdownError :=
  closeComponentsFrom phase methods raises [] components

namespace ClosableBuilder

/-- The owners of copy workers whose drain `_close_payload_copy_components` gathers. -/
def copyClosers (b : ClosableBuilder O) (answers : ShutdownAnswers O) :
    List (String × Option ShutdownError) :=
  let managesCacheCopyLifecycle :=
    b.ownsCache || (b.manageLifecycle && b.exposesPayloadCopyLifecycle)
  if managesCacheCopyLifecycle && b.aclosePayloadCopiesCallable then
    [("builder", answers.isolator), ("cache", answers.cacheCopies)]
  else [("builder", answers.isolator)]

/-- `_close_payload_copy_components`: every drain is started, then the timeouts are reported
together and before anything else. -/
def closePayloadCopyComponents (b : ClosableBuilder O) (answers : ShutdownAnswers O)
    (timeoutSeconds : ℚ) : List (ShutdownEvent O) × Option ShutdownError :=
  let closers := b.copyClosers answers
  let activeComponents := closers.filterMap fun closer =>
    match closer.2 with
    | some (.payloadCopyTimeout _ active) => some (closer.1, activeCopies active)
    | _ => none
  let unexpected := closers.findSome? fun closer =>
    match closer.2 with
    | some (.payloadCopyTimeout _ _) => none
    | result => result
  (closers.map fun closer => .drainsCopies closer.1 timeoutSeconds,
    if activeComponents.isEmpty then unexpected
    else some (.payloadCopyTimeout timeoutSeconds activeComponents))

/-- `_close_owned_observability_buffers`: the same for the buffers the builder created. -/
def closeOwnedObservabilityBuffers (b : ClosableBuilder O) (answers : ShutdownAnswers O)
    (timeoutSeconds : ℚ) (drain : Bool) : List (ShutdownEvent O) × Option ShutdownError :=
  let incomplete := b.ownedObservabilityBuffers.filterMap fun name =>
    match answers.buffer name with
    | .ok false => some (name, answers.pendingOf name)
    | _ => none
  let unexpected := b.ownedObservabilityBuffers.findSome? fun name =>
    match answers.buffer name with
    | .error error => some error
    | .ok _ => none
  (b.ownedObservabilityBuffers.map fun name => .closesBuffer name timeoutSeconds drain,
    if incomplete.isEmpty then unexpected
    else some (.observabilityTimeout timeoutSeconds incomplete))

/-- `_close_observability_downstreams`. -/
def closeObservabilityDownstreams (b : ClosableBuilder O) (answers : ShutdownAnswers O) :
    List (ShutdownEvent O) × Option ShutdownError :=
  if b.observabilityDownstreamsClosed then ([], none)
  else closeComponents .observabilityDownstreams b.methods answers.downstream
    [b.eventsDownstream, b.metricsDownstream]

/-- The components `aclose` closes itself: the sources, and the cache unless it declares that
draining its copy workers closes it. -/
def components (b : ClosableBuilder O) : List O :=
  let cacheLifecycleHandled :=
    b.payloadCopyLifecycleIsCompleteClose && (b.ownsCache || b.manageLifecycle)
  if cacheLifecycleHandled then b.sources else b.sources ++ [b.cache]

/-- A phase inside its own `try`: what it raises is noted and goes no further. -/
def phaseEvents (phase : ShutdownPhase) (ran : List (ShutdownEvent O) × Option ShutdownError) :
    List (ShutdownEvent O) :=
  .begins phase :: ran.1 ++ (ran.2.toList.map (.fails phase))

/-- `SnapshotBuilder.aclose`. -/
def aclose (b : ClosableBuilder O) (answers : ShutdownAnswers O) (cancelRefreshes : Bool)
    (copyTimeout observabilityTimeout : Option ℚ) : Shutdown O :=
  if ∃ t ∈ copyTimeout, t ≤ 0 then ⟨[], some (.other "ValueError"), b⟩
  else if ∃ t ∈ observabilityTimeout, t ≤ 0 then ⟨[], some (.other "ValueError"), b⟩
  else if b.closed then ⟨[], none, b⟩
  else
    let refresh := ([ShutdownEvent.closesRefreshes cancelRefreshes], answers.refreshes)
    let copy := b.closePayloadCopyComponents answers
      (copyTimeout.getD b.copyShutdownTimeoutSeconds)
    let lifecycle := closeComponents .components b.methods answers.component b.components
    let observability := b.closeOwnedObservabilityBuffers answers
      (observabilityTimeout.getD b.observabilityShutdownTimeoutSeconds)
      b.observabilityDrainOnShutdown
    let downstream := b.closeObservabilityDownstreams answers
    let managed := b.manageLifecycle
    -- a buffer that is still delivering keeps its downstream sink open
    let drained := managed && observability.2.isNone
    { events := phaseEvents .refreshes refresh ++ phaseEvents .payloadCopies copy
        ++ (if managed then phaseEvents .components lifecycle else [])
        ++ phaseEvents .observabilityBuffers observability
        ++ (if drained then phaseEvents .observabilityDownstreams downstream else [])
      raised := (((copy.2.or refresh.2).or observability.2).or
        (if managed then lifecycle.2 else none)).or (if drained then downstream.2 else none)
      builder :=
        { b with
          closing := false
          closed := true
          observabilityDownstreamsClosed :=
            b.observabilityDownstreamsClosed || (drained && downstream.2.isNone) } }

/-! ## What a shutdown reaches -/

/-- The shutdown drains the copy workers of the cache. -/
def drainsCache (b : ClosableBuilder O) : Bool :=
  (b.ownsCache || (b.manageLifecycle && b.exposesPayloadCopyLifecycle))
    && b.aclosePayloadCopiesCallable

/-- What a shutdown with managed lifecycle has to close: the sources, and the cache unless draining
its copy workers closes it and they are drained. -/
def managed (b : ClosableBuilder O) : List O :=
  if b.payloadCopyLifecycleIsCompleteClose && b.drainsCache then b.sources
  else b.sources ++ [b.cache]

end ClosableBuilder

/-- The event closes this object. -/
def ShutdownEvent.closesObject (o : O) : ShutdownEvent O → Bool
  | .closes _ component _ => decide (component = o)
  | _ => false

/-- One shutdown closes everything it manages exactly once, attempts every phase (the downstream
sinks once the buffers before them have drained) and raises only an error that a phase noted. -/
structure Shutdown.ReachesAll (b : ClosableBuilder O) (run : Shutdown O) : Prop where
  closes_once : ∀ o ∈ b.managed, ∀ method, b.methods o = some method →
    run.events.filter (ShutdownEvent.closesObject o) = [.closes .components o method]
  attempts : ∀ phase, phase ≠ .observabilityDownstreams → .begins phase ∈ run.events
  attempts_downstreams : .begins .observabilityDownstreams ∈ run.events ↔
    ∀ error, .fails .observabilityBuffers error ∉ run.events
  raises : ∀ error, run.raised = some error → ∃ phase, .fails phase error ∈ run.events
  raises_noted : ∀ phase error, .fails phase error ∈ run.events → run.raised ≠ none

/-- Every buffer the builder owns stops in time. -/
def ClosableBuilder.BuffersStop (b : ClosableBuilder O) (answers : ShutdownAnswers O) : Prop :=
  ∀ name ∈ b.ownedObservabilityBuffers, answers.buffer name = .ok true

/-- Nothing stands behind the first component that raises: no closable component that had not been
met before it. -/
def NothingBehind (methods : O → Option CloseMethod) (raises : O → Option ShutdownError)
    (components : List O) : Prop :=
  ∀ pre o post, components = pre ++ o :: post → methods o ≠ none → raises o ≠ none →
    ∀ o' ∈ post, methods o' ≠ none → o' ∈ pre ∨ o' = o

/-! ## The loop over the components -/

section
variable {phase : ShutdownPhase} {methods : O → Option CloseMethod}
  {raises : O → Option ShutdownError}

theorem closings_closeComponent (o component : O) :
    (closeComponent phase methods raises component).1.filter (ShutdownEvent.closesObject o) =
      if component = o then (methods o).toList.map (.closes phase o) else [] := by
  unfold closeComponent
  by_cases h : component = o
  · subst h
    cases methods component <;> simp [ShutdownEvent.closesObject]
  · cases methods component <;> simp [ShutdownEvent.closesObject, h]

theorem closings_seen {o : O} (l seen : List O) (h : o ∈ seen) :
    (closeComponentsFrom phase methods raises seen l).1.filter (ShutdownEvent.closesObject o) =
      [] := by
  induction l generalizing seen with
  | nil => rfl
  | cons c l ih =>
    rw [closeComponentsFrom]
    split
    · exact ih seen h
    · have hne : c ≠ o := fun e => by subst e; contradiction
      have hc := @closings_closeComponent _ _ phase methods raises o c
      rw [if_neg hne] at hc
      dsimp only
      split
      · exact hc
      · rw [List.filter_append, hc, ih _ (List.mem_cons_of_mem _ h)]
        rfl

/-- The loop comes as far as `o`: nothing before it that was not seen raises. -/
def ComesTo (methods : O → Option CloseMethod) (raises : O → Option ShutdownError)
    (seen l : List O) (o : O) : Prop :=
  o ∈ l ∧ ∀ pre c post, l = pre ++ c :: post → c ∉ seen → methods c ≠ none → raises c ≠ none →
    o ∈ pre ∨ o = c

omit [DecidableEq O] in
theorem comesTo_cons_seen {seen l : List O} {c o : O} (hc : c ∈ seen) (ho : o ∉ seen) :
    ComesTo methods raises seen (c :: l) o ↔ ComesTo methods raises seen l o := by
  have hne : o ≠ c := fun e => ho (e ▸ hc)
  constructor
  · rintro ⟨hmem, hall⟩
    refine ⟨List.mem_of_ne_of_mem hne hmem, fun pre d post hl hd hm hr => ?_⟩
    rcases hall (c :: pre) d post (by rw [hl, List.cons_append]) hd hm hr with h | h
    · exact .inl (List.mem_of_ne_of_mem hne h)
    · exact .inr h
  · rintro ⟨hmem, hall⟩
    refine ⟨List.mem_cons_of_mem _ hmem, fun pre d post hl hd hm hr => ?_⟩
    rcases List.cons_eq_append_iff.mp hl with ⟨rfl, he⟩ | ⟨pre', rfl, hl'⟩
    · rw [List.cons.injEq] at he
      exact absurd (he.1 ▸ hc) hd
    · exact (hall pre' d post hl' hd hm hr).imp_left (List.mem_cons_of_mem _)

omit [DecidableEq O] in
theorem comesTo_cons_quiet {seen l : List O} {c o : O} (hquiet : methods c = none ∨ raises c = none)
    (hne : o ≠ c) :
    ComesTo methods raises seen (c :: l) o ↔ ComesTo methods raises (c :: seen) l o := by
  constructor
  · rintro ⟨hmem, hall⟩
    refine ⟨List.mem_of_ne_of_mem hne hmem, fun pre d post hl hd hm hr => ?_⟩
    have hd' : d ∉ seen := fun h => hd (List.mem_cons_of_mem _ h)
    rcases hall (c :: pre) d post (by rw [hl, List.cons_append]) hd' hm hr with h | h
    · exact .inl (List.mem_of_ne_of_mem hne h)
    · exact .inr h
  · rintro ⟨hmem, hall⟩
    refine ⟨List.mem_cons_of_mem _ hmem, fun pre d post hl hd hm hr => ?_⟩
    have hdc : d ≠ c := fun e => hquiet.elim (e ▸ hm) (e ▸ hr)
    rcases List.cons_eq_append_iff.mp hl with ⟨rfl, he⟩ | ⟨pre', rfl, hl'⟩
    · rw [List.cons.injEq] at he
      exact absurd he.1 hdc
    · have hd' : d ∉ c :: seen := fun h => (List.mem_cons.mp h).elim hdc hd
      exact (hall pre' d post hl' hd' hm hr).imp_left (List.mem_cons_of_mem _)

/-- An object is closed once if the loop comes to it, and not at all otherwise. -/
theorem closings_closeComponentsFrom {o : O} {method : CloseMethod} (hm : methods o = some method)
    (l seen : List O) (ho : o ∉ seen) :
    (ComesTo methods raises seen l o →
      (closeComponentsFrom phase methods raises seen l).1.filter (ShutdownEvent.closesObject o) =
        [.closes phase o method]) ∧
    (¬ ComesTo methods raises seen l o →
      (closeComponentsFrom phase methods raises seen l).1.filter (ShutdownEvent.closesObject o) =
        []) := by
  induction l generalizing seen with
  | nil => exact ⟨fun h => absurd h.1 List.not_mem_nil, fun _ => rfl⟩
  | cons c l ih =>
    rw [closeComponentsFrom]
    by_cases hc : c ∈ seen
    · rw [if_pos hc, comesTo_cons_seen hc ho]
      exact ih seen ho
    · rw [if_neg hc]
      have hhead := @closings_closeComponent _ _ phase methods raises o c
      have herror : (closeComponent phase methods raises c).2 =
          if methods c = none then none else raises c := by
        unfold closeComponent
        cases methods c <;> rfl
      dsimp only
      rw [herror]
      by_cases hco : c = o
      · subst hco
        have hcomes : ComesTo methods raises seen (c :: l) c := by
          refine ⟨List.mem_cons_self, fun pre d post hl _ _ _ => ?_⟩
          rcases List.cons_eq_append_iff.mp hl with ⟨rfl, he⟩ | ⟨pre', rfl, -⟩
          · rw [List.cons.injEq] at he
            exact .inr he.1.symm
          · exact .inl List.mem_cons_self
        rw [if_pos rfl, hm] at hhead
        refine ⟨fun _ => ?_, fun h => absurd hcomes h⟩
        split
        · exact hhead
        · rw [List.filter_append, hhead, closings_seen l _ List.mem_cons_self]
          rfl
      · rw [if_neg hco] at hhead
        by_cases hquiet : methods c = none ∨ raises c = none
        · have hnone : (if methods c = none then none else raises c) = none := by
            rcases hquiet with h | h
            · rw [if_pos h]
            · rw [h, ite_self]
          have hnot : o ∉ c :: seen := fun h =>
            (List.mem_cons.mp h).elim (fun e => hco e.symm) ho
          rw [hnone, comesTo_cons_quiet hquiet fun e => hco e.symm]
          simp only [List.filter_append, hhead, List.nil_append]
          exact ih _ hnot
        · rw [not_or] at hquiet
          obtain ⟨e, he⟩ := Option.ne_none_iff_exists'.mp hquiet.2
          rw [if_neg hquiet.1, he]
          refine ⟨fun h => ?_, fun _ => hhead⟩
          rcases h.2 [] c l rfl hc hquiet.1 hquiet.2 with h' | h'
          · cases h'
          · exact absurd h'.symm hco

/-- The loop only closes, and only in its own phase. -/
theorem closeComponentsFrom_closes (l seen : List O) :
    ∀ e ∈ (closeComponentsFrom phase methods raises seen l).1,
      ∃ o method, methods o = some method ∧ e = .closes phase o method := by
  have hone : ∀ c, ∀ e ∈ (closeComponent phase methods raises c).1,
      ∃ o method, methods o = some method ∧ e = ShutdownEvent.closes phase o method := by
    intro c e he
    unfold closeComponent at he
    split at he
    · rename_i method hm
      exact ⟨c, method, hm, List.mem_singleton.mp he⟩
    · cases he
  induction l generalizing seen with
  | nil => intro e he; cases he
  | cons c l ih =>
    intro e he
    rw [closeComponentsFrom] at he
    dsimp only at he
    split at he
    · exact ih seen e he
    · split at he
      · exact hone c e he
      · rcases List.mem_append.mp he with he | he
        · exact hone c e he
        · exact ih _ e he

end

/-! ## The phases of one shutdown -/

namespace ClosableBuilder
variable {b : ClosableBuilder O} {answers : ShutdownAnswers O}

omit [DecidableEq O] in
theorem mem_phaseEvents {phase : ShutdownPhase}
    {ran : List (ShutdownEvent O) × Option ShutdownError} {e : ShutdownEvent O} :
    e ∈ phaseEvents phase ran ↔
      e = .begins phase ∨ e ∈ ran.1 ∨ ∃ error, ran.2 = some error ∧ e = .fails phase error := by
  cases h : ran.2 <;> simp [phaseEvents, h]

theorem closings_phaseEvents (o : O) (phase : ShutdownPhase)
    (ran : List (ShutdownEvent O) × Option ShutdownError) :
    (phaseEvents phase ran).filter (ShutdownEvent.closesObject o) =
      ran.1.filter (ShutdownEvent.closesObject o) := by
  cases h : ran.2 <;> simp [phaseEvents, h, ShutdownEvent.closesObject]

omit [DecidableEq O] in
/-- The buffers fail exactly when one of them does not stop. -/
theorem buffers_stop (timeout : ℚ) (drain : Bool) :
    (b.closeOwnedObservabilityBuffers answers timeout drain).2 = none ↔
      b.BuffersStop answers := by
  unfold closeOwnedObservabilityBuffers BuffersStop
  dsimp only
  constructor
  · intro h name hname
    split at h
    · rename_i hempty
      rw [List.isEmpty_iff, List.filterMap_eq_nil_iff] at hempty
      have hinc := hempty name hname
      have herr := List.findSome?_eq_none_iff.mp h name hname
      cases hb : answers.buffer name with
      | error e => rw [hb] at herr; cases herr
      | ok stopped =>
        cases stopped with
        | true => rfl
        | false => rw [hb] at hinc; cases hinc
    · cases h
  · intro h
    rw [if_pos, List.findSome?_eq_none_iff]
    · intro name hname
      rw [h name hname]
    · rw [List.isEmpty_iff, List.filterMap_eq_nil_iff]
      intro name hname
      rw [h name hname]

/-- Closing the downstream sinks closes the managed objects among them that the loop comes to. -/
theorem closings_downstreams {o : O} {method : CloseMethod} (hm : b.methods o = some method) :
    (b.closeObservabilityDownstreams answers).1.filter (ShutdownEvent.closesObject o) = [] ↔
      (b.observabilityDownstreamsClosed = false →
        ¬ ComesTo b.methods answers.downstream [] [b.eventsDownstream, b.metricsDownstream] o) := by
  unfold closeObservabilityDownstreams
  cases b.observabilityDownstreamsClosed with
  | true => simp
  | false =>
    obtain ⟨hyes, hno⟩ := @closings_closeComponentsFrom _ _ .observabilityDownstreams _
      answers.downstream _ _ hm [b.eventsDownstream, b.metricsDownstream] [] List.not_mem_nil
    simp only [Bool.false_eq_true, if_false, forall_const, closeComponents]
    constructor
    · intro hnil hcomes
      rw [hyes hcomes] at hnil
      cases hnil
    · exact hno

omit [DecidableEq O] in
theorem nothingBehind_iff {methods : O → Option CloseMethod} {raises : O → Option ShutdownError}
    {components : List O} : NothingBehind methods raises components ↔
      ∀ o ∈ components, methods o ≠ none → ComesTo methods raises [] components o := by
  constructor
  · intro h o ho hm
    refine ⟨ho, fun pre c post hl _ hc hr => ?_⟩
    rw [hl, List.mem_append, List.mem_cons] at ho
    rcases ho with ho | ho | ho
    · exact .inl ho
    · exact .inr ho
    · exact h pre c post hl hc hr o ho hm
  · intro h pre c post hl hc hr o ho hm
    have hmem : o ∈ components := by
      rw [hl]
      exact List.mem_append_right _ (List.mem_cons_of_mem _ ho)
    exact (h o hmem hm).2 pre c post hl List.not_mem_nil hc hr

section
variable {cancelRefreshes : Bool} {copyTimeout observabilityTimeout : Option ℚ}

/-- The first shutdown of a builder that manages its components, phase by phase. -/
theorem aclose_managed (hcopy : ∀ t ∈ copyTimeout, 0 < t)
    (hobservability : ∀ t ∈ observabilityTimeout, 0 < t) (hopen : b.closed = false)
    (hmanaged : b.manageLifecycle = true) : ∃ refresh copy observability,
      (observability.2 = none ↔ b.BuffersStop answers) ∧
      (∀ e ∈ refresh.1 ++ copy.1 ++ observability.1, (∀ p o m, e ≠ ShutdownEvent.closes p o m) ∧
        (∀ p, e ≠ .begins p) ∧ ∀ p error, e ≠ .fails p error) ∧
      let run := b.aclose answers cancelRefreshes copyTimeout observabilityTimeout
      let lifecycle := closeComponents .components b.methods answers.component b.components
      let downstream := b.closeObservabilityDownstreams answers
      let drained := observability.2.isNone
      run.events = phaseEvents .refreshes refresh ++ phaseEvents .payloadCopies copy
        ++ phaseEvents .components lifecycle ++ phaseEvents .observabilityBuffers observability
        ++ (if drained then phaseEvents .observabilityDownstreams downstream else []) ∧
      run.raised = (((copy.2.or refresh.2).or observability.2).or lifecycle.2).or
        (if drained then downstream.2 else none) := by
  have h₁ : ¬ ∃ t ∈ copyTimeout, t ≤ 0 := fun ⟨t, ht, hle⟩ => absurd (hcopy t ht) (not_lt.mpr hle)
  have h₂ : ¬ ∃ t ∈ observabilityTimeout, t ≤ 0 := fun ⟨t, ht, hle⟩ =>
    absurd (hobservability t ht) (not_lt.mpr hle)
  refine ⟨([.closesRefreshes cancelRefreshes], answers.refreshes),
    b.closePayloadCopyComponents answers (copyTimeout.getD b.copyShutdownTimeoutSeconds),
    b.closeOwnedObservabilityBuffers answers
      (observabilityTimeout.getD b.observabilityShutdownTimeoutSeconds)
      b.observabilityDrainOnShutdown, buffers_stop _ _, ?_, ?_⟩
  · intro e he
    simp only [closePayloadCopyComponents, closeOwnedObservabilityBuffers, List.mem_append,
      List.mem_singleton, List.mem_map] at he
    rcases he with (rfl | ⟨x, -, rfl⟩) | ⟨x, -, rfl⟩ <;>
      exact ⟨fun _ _ _ h => (by cases h), fun _ h => (by cases h), fun _ _ h => (by cases h)⟩
  · unfold aclose
    rw [if_neg h₁, if_neg h₂, hopen, hmanaged]
    simp only [Bool.false_eq_true, if_false, if_true, Bool.true_and, and_self]

/-- What closing an object comes to over the whole shutdown. -/
theorem closings_aclose (hcopy : ∀ t ∈ copyTimeout, 0 < t)
    (hobservability : ∀ t ∈ observabilityTimeout, 0 < t) (hopen : b.closed = false)
    (hmanaged : b.manageLifecycle = true) {o : O} {method : CloseMethod}
    (hm : b.methods o = some method) :
    (b.aclose answers cancelRefreshes copyTimeout observabilityTimeout).events.filter
        (ShutdownEvent.closesObject o) = [.closes .components o method] ↔
      ComesTo b.methods answers.component [] b.components o ∧
        (b.BuffersStop answers → b.observabilityDownstreamsClosed = false →
          ¬ ComesTo b.methods answers.downstream [] [b.eventsDownstream, b.metricsDownstream]
            o) := by
  obtain ⟨refresh, copy, observability, hstop, hplain, hevents, -⟩ :=
    @aclose_managed _ _ _ answers cancelRefreshes _ _ hcopy hobservability hopen hmanaged
  obtain ⟨hyes, hno⟩ := @closings_closeComponentsFrom _ _ .components _ answers.component _ _
    hm b.components [] List.not_mem_nil
  have hnone : ∀ l : List (ShutdownEvent O),
      (∀ e ∈ l, e ∈ refresh.1 ++ copy.1 ++ observability.1) →
      l.filter (ShutdownEvent.closesObject o) = [] := by
    intro l hl
    rw [List.filter_eq_nil_iff]
    intro e he hcloses
    cases e with
    | closes p o' m => exact (hplain _ (hl _ he)).1 p o' m rfl
    | _ => cases hcloses
  have hfilter : (b.aclose answers cancelRefreshes copyTimeout observabilityTimeout).events.filter
      (ShutdownEvent.closesObject o) =
      (closeComponents .components b.methods answers.component b.components).1.filter
        (ShutdownEvent.closesObject o) ++
      (if observability.2.isNone then (b.closeObservabilityDownstreams answers).1.filter
        (ShutdownEvent.closesObject o) else []) := by
    rw [hevents]
    simp only [List.filter_append, closings_phaseEvents]
    rw [hnone refresh.1 (by simp +contextual), hnone copy.1 (by simp +contextual),
      hnone observability.1 (by simp +contextual), apply_ite (List.filter _)]
    simp only [closings_phaseEvents, List.filter_nil, List.nil_append, List.append_nil]
  rw [hfilter]
  by_cases hcomes : ComesTo b.methods answers.component [] b.components o
  · have hone := hyes hcomes
    rw [closeComponents, hone, List.append_right_eq_self, and_iff_right hcomes]
    by_cases hs : b.BuffersStop answers
    · rw [hstop.mpr hs]
      simp only [Option.isNone_none, if_true, hs, forall_const]
      exact closings_downstreams hm
    · have hsome : observability.2.isNone = false := by
        rw [Bool.eq_false_iff, Ne, Option.isNone_iff_eq_none, hstop]
        exact hs
      simp [hsome, hs]
  · rw [closeComponents, hno hcomes]
    refine ⟨fun h => ?_, fun h => absurd h.1 hcomes⟩
    have hmem : ShutdownEvent.closes .components o method ∈
        (b.closeObservabilityDownstreams answers).1 := by
      have : ShutdownEvent.closes .components o method ∈ (if observability.2.isNone then
          (b.closeObservabilityDownstreams answers).1.filter (ShutdownEvent.closesObject o)
          else []) := by
        rw [← List.nil_append (ite _ _ _), h]
        exact List.mem_singleton_self _
      split at this
      · exact (List.mem_filter.mp this).1
      · cases this
    unfold closeObservabilityDownstreams at hmem
    split at hmem
    · cases hmem
    · obtain ⟨_, _, _, he⟩ := closeComponentsFrom_closes _ _ _ hmem
      cases he

/-- What the phases of a shutdown end with: each is announced, what it raises is noted, and of
what was noted one error is raised. The buffers before the last phase decide whether it is run. -/
theorem aclose_noted (hcopy : ∀ t ∈ copyTimeout, 0 < t)
    (hobservability : ∀ t ∈ observabilityTimeout, 0 < t) (hopen : b.closed = false)
    (hmanaged : b.manageLifecycle = true) :
    ∃ refresh copy observability components : Option ShutdownError, ∃ last,
      let run := b.aclose answers cancelRefreshes copyTimeout observabilityTimeout
      let results := [(ShutdownPhase.refreshes, refresh), (.payloadCopies, copy),
        (.components, components), (.observabilityBuffers, observability)] ++ last
      (last = [] ∧ observability ≠ none ∨
        observability = none ∧ ∃ downstream, last = [(.observabilityDownstreams, downstream)]) ∧
      (∀ phase, .begins phase ∈ run.events ↔ phase ∈ results.map Prod.fst) ∧
      (∀ phase error, .fails phase error ∈ run.events ↔ (phase, some error) ∈ results) ∧
      (∀ error, run.raised = some error → ∃ phase, (phase, some error) ∈ results) ∧
      (run.raised = none → ∀ result ∈ results, result.2 = none) := by
  obtain ⟨refresh, copy, observability, -, hplain, hevents, hraised⟩ :=
    @aclose_managed _ _ _ answers cancelRefreshes _ _ hcopy hobservability hopen hmanaged
  have hcloses : ∀ e ∈ (b.closeObservabilityDownstreams answers).1,
      ∃ o method, e = ShutdownEvent.closes .observabilityDownstreams o method := by
    intro e he
    unfold closeObservabilityDownstreams at he
    split at he
    · cases he
    · obtain ⟨o, method, -, h⟩ := closeComponentsFrom_closes _ _ _ he
      exact ⟨o, method, h⟩
  have hquiet : ∀ e : ShutdownEvent O, (∃ p, e = .begins p) ∨ (∃ p error, e = .fails p error) →
      e ∉ refresh.1 ∧ e ∉ copy.1 ∧ e ∉ observability.1 ∧
      e ∉ (closeComponents .components b.methods answers.component b.components).1 ∧
      e ∉ (b.closeObservabilityDownstreams answers).1 := by
    intro e he
    have hnot : e ∉ refresh.1 ++ copy.1 ++ observability.1 := by
      intro hmem
      obtain ⟨-, hb, hf⟩ := hplain e hmem
      rcases he with ⟨p, rfl⟩ | ⟨p, error, rfl⟩
      · exact hb p rfl
      · exact hf p error rfl
    simp only [List.mem_append, not_or] at hnot
    refine ⟨hnot.1.1, hnot.1.2, hnot.2, fun h => ?_, fun h => ?_⟩
    · obtain ⟨o, method, -, rfl⟩ := closeComponentsFrom_closes _ _ _ h
      rcases he with ⟨p, h⟩ | ⟨p, error, h⟩ <;> cases h
    · obtain ⟨o, method, rfl⟩ := hcloses e h
      rcases he with ⟨p, h⟩ | ⟨p, error, h⟩ <;> cases h
  refine ⟨refresh.2, copy.2, observability.2,
    (closeComponents .components b.methods answers.component b.components).2,
    if observability.2.isNone then
      [(.observabilityDownstreams, (b.closeObservabilityDownstreams answers).2)] else [], ?_⟩
  dsimp only at hevents hraised ⊢
  rw [hevents, hraised]
  refine ⟨?_, fun phase => ?_, fun phase error => ?_, ?_, ?_⟩
  · cases observability.2 with
    | none => exact .inr ⟨rfl, _, rfl⟩
    | some error => exact .inl ⟨rfl, Option.some_ne_none error⟩
  · obtain ⟨h₁, h₂, h₃, h₄, h₅⟩ := hquiet (.begins phase) (.inl ⟨phase, rfl⟩)
    split <;> simp [mem_phaseEvents, h₁, h₂, h₃, h₄, h₅]
  · obtain ⟨h₁, h₂, h₃, h₄, h₅⟩ := hquiet (.fails phase error) (.inr ⟨phase, error, rfl⟩)
    split <;> simp [mem_phaseEvents, h₁, h₂, h₃, h₄, h₅, eq_comm, and_comm]
  · intro error h
    simp only [Option.or_eq_some_iff] at h
    rcases h with (((h | ⟨-, h⟩) | ⟨-, h⟩) | ⟨-, h⟩) | ⟨-, h⟩
    · exact ⟨.payloadCopies, by simp [h]⟩
    · exact ⟨.refreshes, by simp [h]⟩
    · exact ⟨.observabilityBuffers, by simp [h]⟩
    · exact ⟨.components, by simp [h]⟩
    · refine ⟨.observabilityDownstreams, ?_⟩
      split at h
      · rename_i hdrained
        simp [hdrained, h]
      · cases h
  · intro h result hresult
    simp only [Option.or_eq_none_iff] at h
    obtain ⟨⟨⟨⟨hc, hr⟩, ho⟩, hl⟩, hd⟩ := h
    rw [ho] at hresult hd
    simp only [Option.isNone_none, if_true, List.cons_append, List.nil_append, List.mem_cons,
      List.not_mem_nil, or_false] at hresult hd
    rcases hresult with rfl | rfl | rfl | rfl | rfl
    · exact hr
    · exact hc
    · exact hl
    · rfl
    · exact hd

end

/-- A cache that declares its close complete has its copy workers drained, or is closed after all:
it is one of the sources, or offers nothing to close. -/
def CacheReached (b : ClosableBuilder O) : Prop :=
  b.payloadCopyLifecycleIsCompleteClose = true →
    b.drainsCache = true ∨ b.cache ∈ b.sources ∨ b.methods b.cache = none

/-- Closing the downstream sinks closes no managed component a second time. -/
def SinksApart (b : ClosableBuilder O) (answers : ShutdownAnswers O) : Prop :=
  ∀ o ∈ b.managed, b.methods o ≠ none →
    ¬ ComesTo b.methods answers.downstream [] [b.eventsDownstream, b.metricsDownstream] o

omit [DecidableEq O] in
theorem mem_managed_of_components (hmanaged : b.manageLifecycle = true) {o : O}
    (h : o ∈ b.components) : o ∈ b.managed := by
  unfold components at h
  unfold managed
  rw [hmanaged, Bool.or_true, Bool.and_true] at h
  cases hcomplete : b.payloadCopyLifecycleIsCompleteClose with
  | false => simpa [hcomplete] using h
  | true =>
    rw [hcomplete, if_pos rfl] at h
    split
    · exact h
    · exact List.mem_append_left _ h

omit [DecidableEq O] in
theorem mem_components_of_managed (hmanaged : b.manageLifecycle = true) (hcache : b.CacheReached)
    {o : O} (hm : b.methods o ≠ none) (h : o ∈ b.managed) : o ∈ b.components := by
  unfold managed at h
  unfold components
  rw [hmanaged, Bool.or_true, Bool.and_true]
  cases hcomplete : b.payloadCopyLifecycleIsCompleteClose with
  | false => simpa [hcomplete] using h
  | true =>
    rw [if_pos rfl]
    rcases hcache hcomplete with hdrains | hsource | hoffers
    · simpa [hcomplete, hdrains] using h
    · split at h
      · exact h
      · rcases List.mem_append.mp h with h | h
        · exact h
        · exact List.mem_singleton.mp h ▸ hsource
    · split at h
      · exact h
      · rcases List.mem_append.mp h with h | h
        · exact h
        · exact absurd (List.mem_singleton.mp h ▸ hoffers) hm

/-- The first shutdown of a builder that manages its components reaches all of them exactly when no
component that raises stands in front of another one (and the two corner cases do not arise: a cache
that only pretends to be closed with its copy workers, a component that is a downstream sink too). -/
theorem aclose_reaches_all_iff (b : ClosableBuilder O) (answers : ShutdownAnswers O)
    (cancelRefreshes : Bool) {copyTimeout observabilityTimeout : Option ℚ}
    (hcopy : ∀ t ∈ copyTimeout, 0 < t) (hobservability : ∀ t ∈ observabilityTimeout, 0 < t)
    (hopen : b.closed = false) (hmanaged : b.manageLifecycle = true) :
    (b.aclose answers cancelRefreshes copyTimeout observabilityTimeout).ReachesAll b ↔
      NothingBehind b.methods answers.component b.components ∧ b.CacheReached ∧
        (b.BuffersStop answers → b.observabilityDownstreamsClosed = false →
          b.SinksApart answers) := by
  have hclosings : ∀ {o method}, b.methods o = some method → _ := fun {o method} hm =>
    @closings_aclose _ _ b answers cancelRefreshes _ _ hcopy hobservability hopen hmanaged o method
      hm
  constructor
  · intro h
    have hcomes : ∀ o ∈ b.managed, b.methods o ≠ none → _ := fun o ho hm =>
      (hclosings (Option.ne_none_iff_exists'.mp hm).choose_spec).mp
        (h.closes_once o ho _ (Option.ne_none_iff_exists'.mp hm).choose_spec)
    refine ⟨nothingBehind_iff.mpr fun o ho hm =>
      (hcomes o (mem_managed_of_components hmanaged ho) hm).1, fun hcomplete => ?_,
      fun hstop hsinks o ho hm => (hcomes o ho hm).2 hstop hsinks⟩
    by_contra hcache
    rw [not_or, not_or] at hcache
    obtain ⟨hdrains, hsource, hoffers⟩ := hcache
    have hmem : b.cache ∈ b.managed := by
      simp [managed, hdrains]
    have hcomponent := (hcomes b.cache hmem hoffers).1.1
    unfold components at hcomponent
    rw [hmanaged, hcomplete, Bool.or_true, Bool.and_true, if_pos rfl] at hcomponent
    exact hsource hcomponent
  · rintro ⟨hbehind, hcache, hsinks⟩
    obtain ⟨refresh, copy, observability, components, last, hlast, hbegins, hfails, hraised,
      hquiet⟩ := @aclose_noted _ _ b answers cancelRefreshes _ _ hcopy hobservability hopen hmanaged
    constructor
    · intro o ho method hm
      have hne : b.methods o ≠ none := hm ▸ Option.some_ne_none method
      exact (hclosings hm).mpr ⟨nothingBehind_iff.mp hbehind o
        (mem_components_of_managed hmanaged hcache hne ho) hne,
        fun hstop hopen' => hsinks hstop hopen' o ho hne⟩
    · intro phase hphase
      rw [hbegins]
      cases phase <;> simp at hphase ⊢
    · rw [hbegins]
      rcases hlast with ⟨rfl, hne⟩ | ⟨rfl, downstream, rfl⟩
      · obtain ⟨error, he⟩ := Option.ne_none_iff_exists'.mp hne
        refine ⟨fun h => by simp at h, fun h => absurd ((hfails _ error).mpr ?_) (h error)⟩
        simp [he]
      · refine ⟨fun _ error h => ?_, fun _ => by simp⟩
        have := (hfails _ error).mp h
        simp at this
    · intro error h
      obtain ⟨phase, hp⟩ := hraised error h
      exact ⟨phase, (hfails phase error).mpr hp⟩
    · intro phase error h hnone
      cases hquiet hnone _ ((hfails phase error).mp h)

omit [DecidableEq O] in
/-- Nothing is lost when only the last component raises. -/
theorem nothingBehind_concat {methods : O → Option CloseMethod} {raises : O → Option ShutdownError}
    {init : List O} (last : O) (h : ∀ o ∈ init, raises o = none) :
    NothingBehind methods raises (init ++ [last]) := by
  intro pre o post hl _ hr o' ho' _
  rcases List.eq_nil_or_concat post with rfl | ⟨post', x, rfl⟩
  · cases ho'
  · rw [List.concat_eq_append, ← List.cons_append, ← List.append_assoc] at hl
    have hinit := (List.append_inj' hl rfl).1
    refine absurd (h o ?_) hr
    rw [hinit]
    exact List.mem_append_right _ List.mem_cons_self

end ClosableBuilder
end

/-! ## Two sources -/

/-- A builder with its own cache and two sources that can be closed. -/
def twoSources : ClosableBuilder ℕ where
  sources := [0, 1]
  cache := 2
  ownsCache := true
  exposesPayloadCopyLifecycle := true
  payloadCopyLifecycleIsCompleteClose := true
  aclosePayloadCopiesCallable := true
  manageLifecycle := true
  ownedObservabilityBuffers := []
  eventsDownstream := 3
  metricsDownstream := 4
  observabilityDownstreamsClosed := false
  copyShutdownTimeoutSeconds := 5
  observabilityShutdownTimeoutSeconds := 5
  observabilityDrainOnShutdown := true
  closing := false
  closed := false
  methods o := if o ≤ 2 then closeMethod true false else none

/-- One component raises when it is closed. -/
def raisingOne (component : ℕ) : ShutdownAnswers ℕ where
  refreshes := none
  isolator := none
  cacheCopies := none
  component o := if o = component then some (.other "RuntimeError") else none
  buffer _ := .ok true
  pendingOf _ := 0
  downstream _ := none

theorem aclose_reaches_all_last :
    (twoSources.aclose (raisingOne 1) false none none).ReachesAll twoSources := by
  refine (twoSources.aclose_reaches_all_iff (raisingOne 1) false (by simp) (by simp) rfl rfl).mpr
    ⟨@ClosableBuilder.nothingBehind_concat _ _ _ [0] 1 (by simp [raisingOne]),
      fun _ => .inl rfl, fun _ _ o ho _ hcomes => ?_⟩
  have hsource : o ∈ [0, 1] := ho
  have hsink : o ∈ [3, 4] := hcomes.1
  simp only [List.mem_cons, List.not_mem_nil, or_false] at hsource hsink
  omega

/-- The first source raises and the second one is never closed. -/
theorem aclose_stops_at_first_error :
    (twoSources.aclose (raisingOne 0) false none none).raised = some (.other "RuntimeError") ∧
      (twoSources.aclose (raisingOne 0) false none none).events.filter
        (ShutdownEvent.closesObject 1) = [] ∧
      ¬ (twoSources.aclose (raisingOne 0) false none none).ReachesAll twoSources := by
  have hnone : (twoSources.aclose (raisingOne 0) false none none).events.filter
      (ShutdownEvent.closesObject 1) = [] := by decide
  refine ⟨by decide, hnone, fun h => ?_⟩
  have hone := h.closes_once 1 (by decide) .aclose (by decide)
  rw [hnone] at hone
  cases hone

end Coalestra
