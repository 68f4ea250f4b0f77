import Coalestra.Orchestration.Deadlock
import Coalestra.Orchestration.Discipline

/-! # Deadlines of other sessions

A flight runs in the context of the session that started it, and its outcome goes to everyone who
joined it. A session without a deadline is free of deadline errors as long as it joins only flights
without a deadline. -/

namespace Coalestra
set_option autoImplicit false
set_option maxHeartbeats 250000

section
variable {K V : Type} [DecidableEq K]

/-! ## Errors without a deadline -/

/-- Not a deadline error, and no deadline error among its source failures. -/
def Error.Clean (e : Error K) : Prop :=
  e.includesDeadline = false ∧ e.typeName ≠ "SnapshotDeadlineExceededError"

/-- No source raises a deadline error while it is asked what it supports or depends on. -/
def Builder.DeadlineFree (b : Builder K V) : Prop :=
  ∀ source ∈ b.sources, ∀ k, source.supports k ≠ .error .deadline ∧
    source.dependencies k ≠ .error .deadline

/-- No source call raises a deadline error in a context without one. -/
def SourcesKeepDeadlines (s : State K V) (l : Label K V) : Prop :=
  ∀ i c source keys versions, l = .run i (.raise .deadline) →
    s.frame? i = some ⟨c, .work source keys (.calling versions)⟩ → c.deadline ≠ none

/-- Coroutines without a deadline join only flights without one. -/
def JoinsDeadlineFree (s : State K V) (l : Label K V) : Prop :=
  ∀ i f k q cp owned, l = .run i .go → s.frame? i = some f → f.scope.deadline = none →
    k ∈ f.body.reserving → s.tasks.get? k = some q → s.Called q cp (.produce owned) →
    cp.deadline = none

omit [DecidableEq K] in
theorem clean_other {typeName : String} (h : typeName ≠ "SnapshotDeadlineExceededError") :
    (Error.other typeName : Error K).Clean := ⟨rfl, h⟩

omit [DecidableEq K] in
theorem clean_fault {fault : Fault} (h : fault ≠ .deadline) : (fault.error : Error K).Clean := by
  cases fault with
  | deadline => exact absurd rfl h
  | other typeName named => exact clean_other named

omit [DecidableEq K] in
theorem clean_resource {key : K} {failures : List SourceFailure}
    (h : ∀ f ∈ failures, f.errorType ≠ "SnapshotDeadlineExceededError") :
    (Error.resourceResolution key failures).Clean := by
  refine ⟨?_, by simp [Error.typeName]⟩
  rw [Error.includesDeadline, List.any_eq_false]
  intro f hf
  simpa using h f hf

def SourceAttempt.Clean : SourceAttempt K V → Prop
  | .succeeded _ _ => True
  | .failed e => e.Clean

/-- Errors are clean wherever the context has no deadline. -/
def cleanErrors : Discipline K V where
  covers _ _ := True
  covers_mono _ _ _ _ _ := trivial
  asked _ _ _ := True
  acquired _ _ _ := True
  clock _ := True
  lookup _ _ _ := True
  candidate _ _ _ := True
  copy _ _ _ := True
  served _ _ _ := True
  value _ _ _ := True
  best _ _ _ := True
  winner _ _ _ := True
  error o _ e := o.1 = none → e.Clean
  raised o e := o.1 = none → e.Clean
  failure o _ f := o.1 = none → f.errorType ≠ "SnapshotDeadlineExceededError"
  attempt o _ _ a := o.1 = none → a.Clean
  derivable _ _ _ := True
  dependencies _ _ _ _ := True
  shares o' o := o.1 = none → o'.1 = none

omit [DecidableEq K] in
theorem attemptOf_clean (b : Builder K V) (now : ℚ) (versions : Dict K ℕ)
    (payload : SourcePayload V) : (b.attemptOf now versions payload).Clean := by
  unfold Builder.attemptOf
  split
  · trivial
  · exact clean_other (by decide)

omit [DecidableEq K] in
theorem harvest_refused_clean {b : Builder K V} {now : ℚ} {version : ℕ} {source : Source K}
    {key : K} {a : SourceAttempt K V} {f : SourceFailure} (ha : a.Clean)
    (h : b.harvest now version source key a = .refused f) :
    f.errorType ≠ "SnapshotDeadlineExceededError" := by
  cases a with
  | failed e =>
    cases h
    exact ha.2
  | succeeded payload versions =>
    unfold Builder.harvest at h
    dsimp only at h
    split at h
    · split at h <;> cases h
    · cases h
      simp

theorem cleanErrors_rules {b : Builder K V} (hb : b.DeadlineFree) {s : State K V} {l : Label K V}
    (hsources : SourcesKeepDeadlines s l) (hjoins : JoinsDeadlineFree s l) {i : ℕ} {e : Event K V}
    {f : Frame K V} {m : Step K V} (hl : l = .run i e) (hf : s.frame? i = some f)
    (hm : Move b s f.scope f.body e m) : Rules b s f.scope f.body e cleanErrors where
  clock := trivial
  refreshed _ _ := trivial
  missing _ _ _ := trivial
  pinned _ _ _ _ := trivial
  revisited _ _ _ _ := trivial
  read _ _ _ _ _ _ := trivial
  isolated _ _ _ := trivial
  hit _ _ _ _ _ _ _ := trivial
  kept _ _ _ _ _ _ _ := trivial
  fallback _ _ _ _ _ := trivial
  installed _ _ _ _ := trivial
  serve _ _ _ _ _ _ _ _ _ := trivial
  joins k q cp owned hk hq hc := by
    refine ⟨trivial, fun hnone => ?_⟩
    have he := hm.go_of_reserving hk
    subst he
    exact hjoins i f k q cp owned hl hf hnone hk hq hc
  shares_self := fun h => h
  joinValue _ _ _ _ _ _ _ := trivial
  joinError _ _ _ _ hs _ he := fun h => he (hs h)
  joinRaised _ _ hs he := fun h => he (hs h)
  unsupported source k fault hs _ hk := by
    intro _
    have hne : fault ≠ .deadline := by
      rintro rfl
      exact (hb source hs k).1 hk
    exact (clean_fault hne).2
  direct _ _ _ _ _ := trivial
  undeclared source k fault hs _ hk := by
    intro _
    have hne : fault ≠ .deadline := by
      rintro rfl
      exact (hb source hs k).2 hk
    exact clean_fault hne
  cyclic _ _ _ _ _ _ _ _ _ _ := fun _ => ⟨rfl, by simp [Error.typeName]⟩
  depends _ _ _ _ _ _ _ _ _ _ _ := trivial
  derives _ _ _ _ _ _ _ _ := trivial
  unresolved _ _ _ := fun _ => ⟨rfl, by simp [Error.typeName]⟩
  childRaised _ _ _ h := h
  versions _ _ _ _ _ := trivial
  answered _ _ _ _ _ _ _ := fun _ => attemptOf_clean _ _ _ _
  answeredBatch _ _ _ _ _ _ _ _ := fun _ => attemptOf_clean _ _ _ _
  omitted _ _ typeName h := by
    intro _
    refine clean_other ?_
    rcases h with rfl | rfl <;> decide
  failed source keys versions fault k hbody he hk := by
    intro hnone
    refine clean_fault ?_
    rintro rfl
    obtain ⟨c, body⟩ := f
    subst hbody he
    exact hsources i c source keys versions hl hf hnone
  interrupted fault ha := by
    intro hnone
    refine clean_fault ?_
    rintro rfl
    change f.scope.deadline.isSome = true at ha
    change f.scope.deadline = none at hnone
    rw [hnone] at ha
    cases ha
  refused _ _ _ _ ha hh := fun hnone => harvest_refused_clean (ha hnone) hh
  stale _ _ _ _ _ _ _ := ⟨fun _ => by simp, fun _ => trivial⟩
  fresh _ _ _ _ _ _ _ _ _ _ _ _ _ _ _ := trivial
  superseded _ _ _ _ := trivial
  supersedes _ _ _ _ _ _ _ _ _ := trivial
  bestStale _ _ _ _ _ _ _ _ _ := trivial
  exhausted _ _ h := fun hnone => clean_resource fun f hf => h f hf hnone
  omittedKey typeName h := by
    intro _
    refine clean_other ?_
    rcases h with rfl | rfl <;> decide

/-! ## Every run -/

/-- The conditions of a run, on the state before each step. -/
def KeepsDeadlinesApart (s : State K V) (l : Label K V) : Prop :=
  SourcesKeepDeadlines s l ∧ JoinsDeadlineFree s l

theorem Stepped.clean {b : Builder K V} (hb : b.DeadlineFree) {s t : State K V} {l : Label K V}
    (hl : KeepsDeadlinesApart s l) (h : Stepped b s l t)
    (hs : Shape b s ∧ s.Keeps (cleanErrors (V := V))) :
    Shape b t ∧ t.Keeps (cleanErrors (V := V)) := by
  refine ⟨h.shape hs.1, h.keeps hs.1 hs.2 ?_ ?_ fun _ _ _ _ _ _ => trivial⟩
  · intro i e f m hrun hf hm _
    exact cleanErrors_rules hb hl.1 hl.2 hrun hf hm
  · intro i e f m g _ _ _ hcov
    exact absurd trivial hcov

/-- No source raises a deadline error of its own, and coroutines without a deadline join only
flights without one: then no resolution without a deadline raises a deadline error, reports one for
a key, or lists one among the failures of a key, whatever the deadlines of other sessions do. -/
theorem deadlines_do_not_leak (b : Builder K V) (hb : b.DeadlineFree) {now : ℚ}
    {cache : AsyncMemoryCache K V} {revisions : List (Dict K ℕ)} {ls : List (Label K V)}
    {t : State K V} (h : RunOf b.step KeepsDeadlinesApart (State.initial now cache revisions) ls t)
    {i : ℕ} {c : Scope K} {keys : List K} {l : ManyLocals K V} {p : ManyPhase K V}
    (hf : t.frame? i = some ⟨c, .resolveMany keys l p⟩) (hc : c.deadline = none) :
    (∀ k e, l.errors.get? k = some e → e.Clean) ∧ ∀ e, p = .raised e → e.Clean := by
  have hinit : Shape b (State.initial now cache revisions) ∧
      (State.initial now cache revisions).Keeps (cleanErrors (V := V)) := by
    refine ⟨shape_initial b now cache revisions, ?_⟩
    intro j f hj
    simp [State.frame?, State.initial] at hj
  have hinv := h.invariant (fun s => Shape b s ∧ s.Keeps (cleanErrors (V := V)))
    (fun s l u hl hs hstep => (step_cases hstep).clean hb hl hs) hinit
  obtain ⟨hl, hp⟩ := hinv.2 i _ hf trivial
  refine ⟨fun k e he => hl.errors k e he hc, ?_⟩
  rintro e rfl
  exact hp hc

end

/-! ## A deadline that leaks -/

def plainBuilder : Builder ℕ ℕ :=
  .layered (fun _ => []) (.blocking 10 20 ten_nonneg ten_le_twenty) id

theorem plainBuilder_deadlineFree : plainBuilder.DeadlineFree := by
  intro source hs k
  simp only [plainBuilder, Builder.layered, List.mem_cons, List.not_mem_nil, or_false] at hs
  rcases hs with rfl | rfl <;> exact ⟨by simp, by simp⟩

/-- A check for `SourcesKeepDeadlines`. -/
def keepsDeadline (s : State ℕ ℕ) : Label ℕ ℕ → Bool
  | .run i (.raise .deadline) => (s.frame? i).all fun f => f.scope.deadline.isSome
  | _ => true

/-- A check for `JoinsDeadlineFree`. -/
def joinsDeadlineFree (s : State ℕ ℕ) : Label ℕ ℕ → Bool
  | .run i .go => (s.frame? i).all fun f => f.scope.deadline.isSome ||
      f.body.reserving.all fun k => ((s.tasks.get? k).bind s.frame?).all fun g =>
        g.scope.deadline.isNone
  | _ => true

theorem sourcesKeepDeadlines_of_check {s : State ℕ ℕ} {l : Label ℕ ℕ}
    (h : keepsDeadline s l = true) : SourcesKeepDeadlines s l := by
  rintro i c source keys versions rfl hf hnone
  unfold keepsDeadline at h
  dsimp only at h
  rw [hf] at h
  simp [hnone] at h

theorem joinsDeadlineFree_of_check {s : State ℕ ℕ} {l : Label ℕ ℕ}
    (h : joinsDeadlineFree s l = true) : JoinsDeadlineFree s l := by
  rintro i f k q cp owned rfl hf hnone hk hq ⟨g, hg, rfl, _⟩
  unfold joinsDeadlineFree at h
  dsimp only at h
  rw [hf] at h
  simp only [hnone, Option.isSome_none, Option.all_some, Bool.false_or] at h
  have hall := List.all_eq_true.mp h k hk
  rw [hq, Option.bind_some, hg, Option.all_some] at hall
  simpa using hall

/-- The deadline and the reported errors of a finished `_resolve_many`. -/
def State.reported (s : State ℕ ℕ) (i : ℕ) : Option (Option ℚ × List (ℕ × Error ℕ)) :=
  match s.frame? i with
  | some ⟨c, .resolveMany _ l .done⟩ => some (c.deadline, l.errors.entries)
  | _ => none

theorem reported_some {s : State ℕ ℕ} {i : ℕ} {deadline : Option ℚ} {errors : List (ℕ × Error ℕ)}
    (h : s.reported i = some (deadline, errors)) : ∃ c keys l,
      s.frame? i = some ⟨c, .resolveMany keys l .done⟩ ∧ c.deadline = deadline ∧
        l.errors.entries = errors := by
  unfold State.reported at h
  split at h
  · rename_i c keys l hf
    rw [Option.some.injEq, Prod.mk.injEq] at h
    exact ⟨c, keys, l, hf, h.1, h.2⟩
  · cases h

/-- A session with a deadline and a session without one ask for the same key, and the second joins
the flight of the first. -/
def sharedFlight (deadline : Option ℚ) : List (Label ℕ ℕ) :=
  [.openRuntime .new, .call 0 deadline [0], .openRuntime .new, .call 1 none [0]] ++
    turns [(0, 6), (1, 6), (2, 1), (3, 3)]

def finishFlight : List (Label ℕ ℕ) := turns [(3, 6), (2, 2), (1, 3)]

/-- One session has a deadline and its source call is cut; two sessions without deadlines share a
flight that fails by itself. -/
def separateFlights : List (Label ℕ ℕ) :=
  [.openRuntime .new, .call 0 (some 5) [1], .openRuntime .new, .call 1 none [0],
    .openRuntime .new, .call 2 none [0]] ++
    turns [(0, 6), (1, 6), (2, 6), (3, 1), (4, 1), (5, 3), (6, 3)] ++
    [.run 7 (.raise .deadline), .run 8 (.raise (.other "ValueError" valueError_named))] ++
    turns [(5, 6), (3, 2), (0, 3), (6, 6), (4, 2), (1, 3), (2, 3)]

theorem deadlines_do_not_leak_separate : ∃ (t : State ℕ ℕ) (c : Scope ℕ) (keys : List ℕ)
    (l : ManyLocals ℕ ℕ),
    RunOf plainBuilder.step KeepsDeadlinesApart coldState separateFlights t ∧
      t.reported 0 = some (some 5,
        [(1, .resourceResolution 1 [⟨"plain", "SnapshotDeadlineExceededError"⟩])]) ∧
      t.frame? 2 = some ⟨c, .resolveMany keys l .done⟩ ∧
      l.errors.get? 0 = some (.resourceResolution 0 [⟨"plain", "ValueError"⟩]) ∧
      ∀ k e, l.errors.get? k = some e → e.Clean := by
  have hrun : (execOf plainBuilder.step (fun s l => keepsDeadline s l && joinsDeadlineFree s l)
      coldState separateFlights).map (fun t =>
        (decide (t.reported 0 = some (some 5,
            [(1, .resourceResolution 1 [⟨"plain", "SnapshotDeadlineExceededError"⟩])])),
          decide (t.reported 2 = some (none,
            [(0, .resourceResolution 0 [⟨"plain", "ValueError"⟩])])))) = some (true, true) := by
    decide +kernel
  obtain ⟨t, ht, hfacts⟩ := Option.map_eq_some_iff.mp hrun
  simp only [Prod.mk.injEq, decide_eq_true_eq] at hfacts
  obtain ⟨c, keys, l, hf, hdeadline, herrors⟩ := reported_some hfacts.2
  have hok : RunOf plainBuilder.step KeepsDeadlinesApart coldState separateFlights t := by
    refine (execOf_run ht).mono ?_
    intro s label h
    rw [Bool.and_eq_true] at h
    exact ⟨sourcesKeepDeadlines_of_check h.1, joinsDeadlineFree_of_check h.2⟩
  have hclean := deadlines_do_not_leak plainBuilder plainBuilder_deadlineFree hok hf hdeadline
  refine ⟨t, c, keys, l, hok, hfacts.1, hf, ?_, hclean.1⟩
  apply Dict.mem_entries.mp
  rw [herrors]
  exact List.mem_singleton_self _

/-- A session without a deadline joins a flight whose session has one. The deadline cuts the source
call, no source raises it, and the session without a deadline reports it; had the other session no
deadline and did the source answer, it would report no error. -/
theorem joined_flight_leaks_deadline :
    (∃ t : State ℕ ℕ, RunOf plainBuilder.step SourcesKeepDeadlines coldState
        (sharedFlight (some 5) ++ [.run 4 (.raise .deadline)] ++ finishFlight) t ∧
      t.reported 1 = some (none,
        [(0, .resourceResolution 0 [⟨"plain", "SnapshotDeadlineExceededError"⟩])])) ∧
    ∃ t : State ℕ ℕ, Run plainBuilder.step coldState
        (sharedFlight none ++ [.run 4 (.answer (Dict.empty.set 0 ⟨7, none⟩))] ++
          turns [(3, 8), (2, 2), (1, 3)]) t ∧
      t.reported 1 = some (none, []) := by
  constructor
  · have hrun : (execOf plainBuilder.step keepsDeadline coldState
        (sharedFlight (some 5) ++ [.run 4 (.raise .deadline)] ++ finishFlight)).map
        (fun t => t.reported 1) = some (some (none,
          [(0, .resourceResolution 0 [⟨"plain", "SnapshotDeadlineExceededError"⟩])])) := by
      decide +kernel
    obtain ⟨t, ht, hreported⟩ := Option.map_eq_some_iff.mp hrun
    exact ⟨t, (execOf_run ht).mono fun _ _ => sourcesKeepDeadlines_of_check, hreported⟩
  · have hrun : (exec plainBuilder.step coldState
        (sharedFlight none ++ [.run 4 (.answer (Dict.empty.set 0 ⟨7, none⟩))] ++
          turns [(3, 8), (2, 2), (1, 3)])).map (fun t => t.reported 1) =
        some (some (none, [])) := by
      decide +kernel
    obtain ⟨t, ht, hreported⟩ := Option.map_eq_some_iff.mp hrun
    exact ⟨t, exec_run ht, hreported⟩

end Coalestra
