import Coalestra.Cache.Expiry
import Coalestra.Cache.Writers

/-! # Publications

`cache/publisher.py` over `AsyncMemoryCache`: `publish_many` selects one update for each key, reads
what is cached through an unbounded window, and hands its candidates to `set_many_if_newer`. The
striped locks only order publications of shared keys; here publications, reads, writes and removals
interleave freely. -/

namespace Coalestra
set_option autoImplicit false
set_option maxHeartbeats 250000

open AsyncMemoryCache

/-! ## Updates -/

inductive PublishStatus
  | published
  | ignoredOlder
  | ignoredDuplicate
  | ignoredLowerAuthority
  deriving DecidableEq, Repr

/-- `ResourceUpdate`. -/
structure ResourceUpdate (K V : Type) where
  key : K
  value : V
  source : String
  observedAt : Option ℚ
  source_nonempty : source ≠ ""

theorem local_named : "local" ≠ "" := by decide

structure PublishResult (K V : Type) where
  status : PublishStatus
  value : SnapshotValue K V
  previous : Option (SnapshotValue K V)

/-- `ResourcePublisher`, as far as it decides about values. -/
structure ResourcePublisher (K V : Type) where
  policyFor : K → FreshnessPolicy
  rankFor : K → String → ℤ
  copier : V → V
  futureToleranceSeconds : ℚ
  rejectFutureObservations : Bool

section
variable {K V : Type}

def ResourceUpdate.observed (u : ResourceUpdate K V) (now : ℚ) : ℚ := u.observedAt.getD now

namespace ResourcePublisher

/-- `_validate_observed_at` raises nothing. -/
def accepts (p : ResourcePublisher K V) (now : ℚ) (u : ResourceUpdate K V) : Bool :=
  !(p.rejectFutureObservations && decide (p.futureToleranceSeconds < u.observed now - now))

/-- The tuple `(authority_rank, observed_at)` of an update. -/
def precedence (p : ResourcePublisher K V) (now : ℚ) (u : ResourceUpdate K V) : ℤ ×ₗ ℚ :=
  toLex (p.rankFor u.key u.source, u.observed now)

/-- The update selected for each key: the last of the greatest precedence. -/
def selectUpdates [DecidableEq K] (p : ResourcePublisher K V) (now : ℚ)
    (updates : List (ResourceUpdate K V)) : Dict K (ResourceUpdate K V) :=
  updates.foldl (fun unique u =>
    match unique.get? u.key with
    | none => unique.set u.key u
    | some previous =>
      if p.precedence now previous ≤ p.precedence now u then unique.set u.key u else unique)
    .empty

/-- `prepare_candidate`. -/
def prepareCandidate (p : ResourcePublisher K V) (now : ℚ) (version : ℕ) (u : ResourceUpdate K V) :
    SnapshotValue K V where
  key := u.key
  value := p.copier u.value
  source := u.source
  observedAt := u.observed now
  fetchedAt := now
  ageSeconds := ageAt now (u.observed now)
  stale := decide ((p.policyFor u.key).ttlSeconds < (ageAt now (u.observed now) : WithTop ℚ))
  fromCache := false
  authorityRank := p.rankFor u.key u.source
  version := version
  dependencyVersions := ⟨[], List.nodup_nil⟩

/-- `prepare_candidate` for every selected update, each with a version of its own. -/
def prepareCandidates (p : ResourcePublisher K V) (now : ℚ) :
    ℕ → List (ResourceUpdate K V) → List (SnapshotValue K V)
  | _, [] => []
  | version, u :: updates =>
    p.prepareCandidate now version u :: prepareCandidates p now (version + 1) updates

end ResourcePublisher

/-- The status of a publication for the status of its cache write. -/
def CacheWriteStatus.publishStatus : CacheWriteStatus → PublishStatus
  | .stored => .published
  | .ignoredLowerAuthority => .ignoredLowerAuthority
  | .ignoredOlder => .ignoredOlder
  | .ignoredDuplicate => .ignoredDuplicate

/-- `_publish_result_from_cache`, after the copy `set_many_if_newer` makes of its results. -/
def publishResultFromCache (copier : V → V) (r : CapturedWriteResult K V) : PublishResult K V :=
  ⟨r.status.publishStatus, (r.value.clone copier).clone copier,
    r.previous.map fun v => (v.clone copier).clone copier⟩

end

/-! ## Publications in progress -/

inductive PublishPhase (K V : Type)
  | reading
  | storing
  | writing (w : ℕ)
  | finished (results : List (K × PublishResult K V))
  | raised

/-- One `publish_many` call. `now` is the clock reading it took under its locks. -/
structure Publication (K V : Type) where
  now : ℚ
  candidates : List (SnapshotValue K V)
  force : Bool
  replaceEqual : Bool
  phase : PublishPhase K V

/-- The cache, its write calls and the publications on it. -/
structure PublisherTasks (K V : Type) [DecidableEq K] where
  tasks : CacheTasks K V
  publications : List (Publication K V)
  nextVersion : ℕ

/-- `cache` is any step of a cache task: a read, write or removal of a build, or a phase of a write
call a publication made. -/
inductive PublisherEvent (K V : Type)
  | publishMany (now : ℚ) (updates : List (ResourceUpdate K V)) (force replaceEqual : Bool)
  | getExisting (i : ℕ)
  | setMany (i : ℕ)
  | results (i : ℕ)
  | fails (i : ℕ)
  | cache (e : CacheEvent K V)

section
variable {K V : Type} [DecidableEq K]

def Publication.keys (p : Publication K V) : List K := p.candidates.map SnapshotValue.key

namespace PublisherTasks

def setPublication (s : PublisherTasks K V) (i : ℕ) (p : Publication K V)
    (phase : PublishPhase K V) : PublisherTasks K V :=
  { s with publications := s.publications.set i { p with phase := phase } }

/-- `publish_many` up to its first await under the locks. -/
def publishMany (publisher : ResourcePublisher K V) (s : PublisherTasks K V) (now : ℚ)
    (updates : List (ResourceUpdate K V)) (force replaceEqual : Bool) : PublisherTasks K V :=
  let unique := publisher.selectUpdates now updates
  let candidates := publisher.prepareCandidates now s.nextVersion unique.values
  let phase := if updates = [] then .finished []
    else if updates.all (publisher.accepts now) then .reading else .raised
  { s with
    publications := s.publications ++ [⟨now, candidates, force, replaceEqual, phase⟩]
    nextVersion := s.nextVersion + candidates.length }

end PublisherTasks

def publisherStep (publisher : ResourcePublisher K V) (s : PublisherTasks K V) :
    PublisherEvent K V → Option (PublisherTasks K V)
  | .publishMany now updates force replaceEqual =>
    some (s.publishMany publisher now updates force replaceEqual)
  | .getExisting i =>
    match s.publications[i]? with
    | some p =>
      match p.phase with
      | .reading =>
        (cacheStep publisher.copier s.tasks
          (.getMany p.keys p.now fun _ => .allValues)).map fun tasks =>
            { s with tasks := tasks }.setPublication i p .storing
      | _ => none
    | none => none
  | .setMany i =>
    match s.publications[i]? with
    | some p =>
      match p.phase with
      | .storing =>
        (cacheStep publisher.copier s.tasks (.call
          (p.candidates.map (SnapshotValue.clone publisher.copier)) p.force p.replaceEqual)).map
            fun tasks =>
              { s with tasks := tasks }.setPublication i p (.writing s.tasks.writers.length)
      | _ => none
    | none => none
  | .results i =>
    match s.publications[i]? with
    | some p =>
      match p.phase with
      | .writing w =>
        match s.tasks.writers[w]? with
        | some writer =>
          match writer.phase with
          | .committed results => some (s.setPublication i p (.finished
              (results.map fun r => (r.1, publishResultFromCache publisher.copier r.2))))
          | .failed => some (s.setPublication i p .raised)
          | _ => none
        | none => none
      | _ => none
    | none => none
  | .fails i =>
    match s.publications[i]? with
    | some p =>
      match p.phase with
      | .finished _ => none
      | .raised => none
      | _ => some (s.setPublication i p .raised)
    | none => none
  | .cache e => (cacheStep publisher.copier s.tasks e).map fun tasks => { s with tasks := tasks }


/-! ## What a publication keeps -/

/-- In a run from `s₀` with the events `es` the cache stood as `before` when the write call `w` took
the lock for a check round. -/
def Seen (publisher : ResourcePublisher K V) (s₀ : PublisherTasks K V)
    (es : List (PublisherEvent K V)) (w : ℕ) (before : AsyncMemoryCache K V) : Prop :=
  ∃ first rest u, es = first ++ .cache (.check w) :: rest ∧
    Run (publisherStep publisher) s₀ first u ∧ u.tasks.cache = before

theorem Seen.snoc {publisher : ResourcePublisher K V} {s₀ : PublisherTasks K V}
    {es : List (PublisherEvent K V)} {w : ℕ} {before : AsyncMemoryCache K V}
    (h : Seen publisher s₀ es w before) (e : PublisherEvent K V) :
    Seen publisher s₀ (es ++ [e]) w before := by
  obtain ⟨first, rest, u, rfl, hrun, hu⟩ := h
  exact ⟨first, rest ++ [e], u, List.append_assoc _ _ _, hrun, hu⟩

/-- A committed write call compared its candidates with the entries of one earlier moment. -/
def Compared (seen : AsyncMemoryCache K V → Prop) (writer : Writer K V) : Prop :=
  ∀ results, writer.phase = .committed results → ∀ k r, (k, r) ∈ results →
    ∃ before v, seen before ∧ writer.candidates.get? k = some v ∧
      r.status = writeStatus (before.get? k) v writer.force writer.replaceEqual ∧
      r.previous = before.get? k ∧ (r.status ≠ .stored → r.previous = some r.value)

theorem Compared.mono {seen seen' : AsyncMemoryCache K V → Prop} {writer : Writer K V}
    (h : Compared seen writer) (hseen : ∀ c, seen c → seen' c) : Compared seen' writer := by
  intro results hphase k r hr
  obtain ⟨before, v, hbefore, hrest⟩ := h results hphase k r hr
  exact ⟨before, v, hseen before hbefore, hrest⟩

theorem Compared.of_open {seen : AsyncMemoryCache K V → Prop} {writer : Writer K V}
    (h : writer.phase.results = none) : Compared seen writer := by
  intro results hphase
  rw [hphase] at h
  cases h

theorem startWriter_compared {seen : AsyncMemoryCache K V → Prop}
    (values : List (SnapshotValue K V)) (force replaceEqual : Bool) :
    Compared seen (startWriter values force replaceEqual) := by
  intro results hphase k r hr
  rw [startWriter] at hphase
  simp only at hphase
  split at hphase
  · rw [WriterPhase.committed.injEq] at hphase
    rw [← hphase] at hr
    cases hr
  · cases hphase

/-- A cache step leaves every write call compared. -/
theorem compared_step {copier : V → V} {s t : CacheTasks K V} {e : CacheEvent K V}
    {seen : ℕ → AsyncMemoryCache K V → Prop} (hs : s.Sound copier)
    (h : cacheStep copier s e = some t) (hseen : ∀ w, e = .check w → seen w s.cache)
    (hold : ∀ (w : ℕ) writer, s.writers[w]? = some writer → Compared (seen w) writer) :
    ∀ (w : ℕ) writer, t.writers[w]? = some writer → Compared (seen w) writer := by
  intro w writer ht
  cases hw : s.writers[w]? with
  | some old =>
    cases writer_step hs h hw with
    | other hsame _ =>
      rw [hsame, Option.some.injEq] at ht
      exact ht ▸ hold w old hw
    | phase phase hsame _ _ hopen _ =>
      rw [hsame, Option.some.injEq] at ht
      exact ht ▸ Compared.of_open hopen
    | commit results he hsame _ hpoint _ =>
      rw [hsame, Option.some.injEq] at ht
      subst ht
      intro results' hphase k r hr
      rw [WriterPhase.committed.injEq] at hphase
      subst hphase
      obtain ⟨v, hv, hstatus, hprevious⟩ := hpoint.compared k r hr
      exact ⟨s.cache, v, hseen w he, hv, hstatus, hprevious, hpoint.ignored k r hr⟩
  | none =>
    -- Only a new call adds a writer.
    cases cacheStep_cases h with
    | call values force replaceEqual hcall =>
      subst hcall
      rw [List.getElem?_eq_none_iff] at hw
      rw [List.getElem?_append_right hw, List.getElem?_singleton] at ht
      split at ht
      · rw [Option.some.injEq] at ht
        exact ht ▸ startWriter_compared values force replaceEqual
      · cases ht
    | commit i _ _ _ _ hi _ _ _ hcall =>
      rw [hcall, setPhase_absent hi hw] at ht
      cases ht
    | recheck i _ _ _ hi _ _ _ hcall =>
      rw [hcall, setPhase_absent hi hw] at ht
      cases ht
    | prepared i _ _ _ hi _ hcall =>
      rw [hcall, setPhase_absent hi hw] at ht
      cases ht
    | copyFails i _ _ _ hi _ hcall =>
      rw [hcall, setPhase_absent hi hw] at ht
      cases ht
    | removal _ _ hwriters _ =>
      rw [hwriters, hw] at ht
      cases ht

/-- A write call keeps its candidates and flags. -/
theorem writer_persists {copier : V → V} {s t : CacheTasks K V} {e : CacheEvent K V}
    (hs : s.Sound copier) (h : cacheStep copier s e = some t) {w : ℕ} {writer : Writer K V}
    (hw : s.writers[w]? = some writer) :
    ∃ phase, t.writers[w]? = some { writer with phase := phase } := by
  cases writer_step hs h hw with
  | other hsame _ => exact ⟨writer.phase, hsame⟩
  | phase phase hsame _ _ _ _ => exact ⟨phase, hsame⟩
  | commit results _ hsame _ _ _ => exact ⟨_, hsame⟩

theorem mem_of_selectCandidates {values : List (SnapshotValue K V)} {k : K}
    {v : SnapshotValue K V} (h : (selectCandidates values).get? k = some v) : v ∈ values := by
  have hall : ∀ k v, (selectCandidates values).get? k = some v → v ∈ values := by
    unfold selectCandidates
    refine List.foldlRecOn (motive := fun e : CacheEntries K V =>
      ∀ k v, e.get? k = some v → v ∈ values) values _ (by simp) fun e he value hvalue => ?_
    have hput : ∀ k v, (e.put value).get? k = some v → v ∈ values := by
      intro k v hv
      rw [CacheEntries.get?_put] at hv
      by_cases hk : k = value.key
      · rw [if_pos hk, Option.some.injEq] at hv
        exact hv ▸ hvalue
      · rw [if_neg hk] at hv
        exact he k v hv
    split
    · exact hput
    · split
      · exact hput
      · exact he
  exact hall k v h

omit [DecidableEq K] in
theorem writeStatus_clone (copier : V → V) (previous : Option (SnapshotValue K V))
    (v : SnapshotValue K V) (force replaceEqual : Bool) :
    writeStatus previous (v.clone copier) force replaceEqual =
      writeStatus previous v force replaceEqual := by
  cases previous <;> rfl

/-- Every answer compares a candidate with the entry of one moment, and an ignored candidate gets
that entry back. -/
def Answered (copier : V → V) (seen : ℕ → AsyncMemoryCache K V → Prop) (p : Publication K V)
    (results : List (K × PublishResult K V)) : Prop :=
  ∀ k r, (k, r) ∈ results → ∃ w before candidate, seen w before ∧ candidate ∈ p.candidates ∧
    candidate.key = k ∧
    r.status = (writeStatus (before.get? k) candidate p.force p.replaceEqual).publishStatus ∧
    (r.status ≠ .published →
      ∃ kept, before.get? k = some kept ∧ r.value = (kept.clone copier).clone copier)

def PublicationSound (copier : V → V) (seen : ℕ → AsyncMemoryCache K V → Prop) (tasks : CacheTasks K V)
    (p : Publication K V) : Prop :=
  match p.phase with
  | .writing w => ∃ writer, tasks.writers[w]? = some writer ∧
      writer.candidates = selectCandidates (p.candidates.map (SnapshotValue.clone copier)) ∧
      writer.force = p.force ∧ writer.replaceEqual = p.replaceEqual
  | .finished results => Answered copier seen p results
  | _ => True

/-- What holds of the publications and write calls at every moment. -/
structure PublisherTasks.Sound (copier : V → V) (seen : ℕ → AsyncMemoryCache K V → Prop)
    (s : PublisherTasks K V) : Prop where
  tasks : s.tasks.Sound copier
  compared : ∀ (w : ℕ) writer, s.tasks.writers[w]? = some writer → Compared (seen w) writer
  publications : ∀ (i : ℕ) p, s.publications[i]? = some p → PublicationSound copier seen s.tasks p

theorem PublicationSound.mono {copier : V → V} {seen seen' : ℕ → AsyncMemoryCache K V → Prop}
    {tasks : CacheTasks K V} {p : Publication K V} (h : PublicationSound copier seen tasks p)
    (hseen : ∀ w c, seen w c → seen' w c) : PublicationSound copier seen' tasks p := by
  unfold PublicationSound at h ⊢
  cases hphase : p.phase with
  | finished results =>
    rw [hphase] at h
    intro k r hr
    obtain ⟨w, before, candidate, hbefore, hrest⟩ := h k r hr
    exact ⟨w, before, candidate, hseen w before hbefore, hrest⟩
  | writing w =>
    rw [hphase] at h
    exact h
  | _ => trivial

theorem PublicationSound.step {copier : V → V} {seen : ℕ → AsyncMemoryCache K V → Prop}
    {s t : CacheTasks K V} {e : CacheEvent K V} {p : Publication K V}
    (h : PublicationSound copier seen s p) (hs : s.Sound copier)
    (hstep : cacheStep copier s e = some t) : PublicationSound copier seen t p := by
  unfold PublicationSound at h ⊢
  cases hphase : p.phase with
  | writing w =>
    rw [hphase] at h
    obtain ⟨writer, hw, hcandidates, hforce, hreplace⟩ := h
    obtain ⟨phase, ht⟩ := writer_persists hs hstep hw
    exact ⟨_, ht, hcandidates, hforce, hreplace⟩
  | finished results =>
    rw [hphase] at h
    exact h
  | _ => trivial

section
variable {copier : V → V} {seen : ℕ → AsyncMemoryCache K V → Prop} {s t : PublisherTasks K V}

/-- A cache step under the publications. -/
theorem PublisherTasks.Sound.tasks_step (h : s.Sound copier seen) {e : CacheEvent K V}
    {tasks : CacheTasks K V} (hseen : ∀ w, e = .check w → seen w s.tasks.cache)
    (hstep : cacheStep copier s.tasks e = some tasks) :
    ({ s with tasks := tasks } : PublisherTasks K V).Sound copier seen where
  tasks := sound_step h.tasks hstep
  compared := compared_step h.tasks hstep hseen h.compared
  publications := fun i p hp => (h.publications i p hp).step h.tasks hstep

theorem PublisherTasks.Sound.setPublication (h : s.Sound copier seen) (i : ℕ)
    {p : Publication K V} {phase : PublishPhase K V}
    (hp : PublicationSound copier seen s.tasks { p with phase := phase }) :
    (s.setPublication i p phase).Sound copier seen where
  tasks := h.tasks
  compared := h.compared
  publications := by
    intro j q hq
    rw [PublisherTasks.setPublication, List.getElem?_set] at hq
    split at hq
    · split at hq
      · rw [← Option.some.inj hq]
        exact hp
      · cases hq
    · exact h.publications j q hq

/-- The answers of a publication whose write call has committed. -/
theorem answered_of_committed {p : Publication K V} {w : ℕ} {writer : Writer K V}
    {results : List (K × CapturedWriteResult K V)} (hcompared : Compared (seen w) writer)
    (hcandidates : writer.candidates =
      selectCandidates (p.candidates.map (SnapshotValue.clone copier)))
    (hforce : writer.force = p.force) (hreplace : writer.replaceEqual = p.replaceEqual)
    (hphase : writer.phase = .committed results) :
    Answered copier seen p
      (results.map fun r => (r.1, publishResultFromCache copier r.2)) := by
  intro k r hr
  obtain ⟨⟨k', captured⟩, hcaptured, heq⟩ := List.mem_map.mp hr
  rw [Prod.mk.injEq] at heq
  obtain ⟨rfl, rfl⟩ := heq
  obtain ⟨before, v, hbefore, hv, hstatus, hprevious, hkept⟩ :=
    hcompared results hphase k' captured hcaptured
  have hkey : v.key = k' := writer.candidates.keyed hv
  rw [hcandidates] at hv
  obtain ⟨candidate, hmem, rfl⟩ := List.mem_map.mp (mem_of_selectCandidates hv)
  refine ⟨w, before, candidate, hbefore, hmem, hkey, ?_, fun hne => ?_⟩
  · rw [publishResultFromCache, hstatus, hforce, hreplace, writeStatus_clone]
  · have hignored : captured.status ≠ .stored := by
      intro hstored
      rw [publishResultFromCache, hstored] at hne
      exact hne rfl
    exact ⟨captured.value, hprevious ▸ hkept hignored, rfl⟩

theorem publisher_step {publisher : ResourcePublisher K V} {e : PublisherEvent K V}
    (h : s.Sound publisher.copier seen)
    (hseen : ∀ w, e = .cache (.check w) → seen w s.tasks.cache)
    (hstep : publisherStep publisher s e = some t) : t.Sound publisher.copier seen := by
  cases e with
  | publishMany now updates force replaceEqual =>
    rw [publisherStep, Option.some.injEq] at hstep
    subst hstep
    refine ⟨h.tasks, h.compared, fun i p hp => ?_⟩
    simp only [PublisherTasks.publishMany, List.getElem?_append] at hp
    split at hp
    · exact h.publications i p hp
    · rw [List.getElem?_singleton] at hp
      split at hp
      · rw [Option.some.injEq] at hp
        subst hp
        unfold PublicationSound
        simp only
        split
        · rename_i hphase
          split at hphase
          · cases hphase
          · split at hphase
            · cases hphase
            · cases hphase
        · rename_i results hphase
          split at hphase
          · rw [PublishPhase.finished.injEq] at hphase
            subst hphase
            intro k r hr
            cases hr
          · split at hphase
            · cases hphase
            · cases hphase
        · trivial
      · cases hp
  | getExisting i =>
    simp only [publisherStep] at hstep
    split at hstep
    · split at hstep
      · obtain ⟨tasks, htasks, rfl⟩ := Option.map_eq_some_iff.mp hstep
        exact (h.tasks_step (by simp) htasks).setPublication i trivial
      · cases hstep
    · cases hstep
  | setMany i =>
    simp only [publisherStep] at hstep
    split at hstep
    · rename_i p hp
      split at hstep
      · obtain ⟨tasks, htasks, rfl⟩ := Option.map_eq_some_iff.mp hstep
        refine (h.tasks_step (by simp) htasks).setPublication i ?_
        simp only [cacheStep, Option.some.injEq] at htasks
        subst htasks
        exact ⟨_, List.getElem?_concat_length, rfl, rfl, rfl⟩
      · cases hstep
    · cases hstep
  | results i =>
    simp only [publisherStep] at hstep
    split at hstep
    · rename_i p hp
      split at hstep
      · rename_i w hphase
        have hsound := h.publications i p hp
        unfold PublicationSound at hsound
        rw [hphase] at hsound
        obtain ⟨writer, hw, hcandidates, hforce, hreplace⟩ := hsound
        rw [hw] at hstep
        simp only at hstep
        split at hstep
        · rename_i results hcommitted
          rw [Option.some.injEq] at hstep
          subst hstep
          exact h.setPublication i
            (answered_of_committed (h.compared w writer hw) hcandidates hforce hreplace hcommitted)
        · rw [Option.some.injEq] at hstep
          subst hstep
          exact h.setPublication i trivial
        · cases hstep
      · cases hstep
    · cases hstep
  | fails i =>
    simp only [publisherStep] at hstep
    split at hstep
    · split at hstep
      · cases hstep
      · cases hstep
      · rw [Option.some.injEq] at hstep
        subst hstep
        exact h.setPublication i trivial
    · cases hstep
  | cache e =>
    obtain ⟨tasks, htasks, rfl⟩ := Option.map_eq_some_iff.mp hstep
    exact h.tasks_step (fun w he => hseen w (by rw [he])) htasks

end

/-! ## Whole runs -/

/-- A publisher over a cache, before any call. -/
def PublisherTasks.new (cache : AsyncMemoryCache K V) (nextVersion : ℕ) : PublisherTasks K V :=
  ⟨⟨cache, []⟩, [], nextVersion⟩

theorem publisher_run {publisher : ResourcePublisher K V} {cache : AsyncMemoryCache K V} {n : ℕ}
    {es : List (PublisherEvent K V)} {s : PublisherTasks K V}
    (hrun : Run (publisherStep publisher) (.new cache n) es s) :
    s.Sound publisher.copier (Seen publisher (.new cache n) es) := by
  refine hrun.history
    (P := fun es s => s.Sound publisher.copier (Seen publisher (.new cache n) es)) ?_ ?_
  · exact ⟨fun w writer hw => by simp [PublisherTasks.new] at hw,
      fun w writer hw => by simp [PublisherTasks.new] at hw,
      fun i p hp => by simp [PublisherTasks.new] at hp⟩
  · intro es s e t hes _ hstep hs
    have hnow : ∀ w, e = .cache (.check w) →
        Seen publisher (.new cache n) (es ++ [e]) w s.tasks.cache := by
      intro w he
      exact ⟨es, [], s, by rw [he], hes, rfl⟩
    have hgrow : ∀ w c, Seen publisher (.new cache n) es w c →
        Seen publisher (.new cache n) (es ++ [e]) w c := fun w c hc => hc.snoc e
    have hmono : s.Sound publisher.copier (Seen publisher (.new cache n) (es ++ [e])) :=
      ⟨hs.tasks, fun w writer hw => (hs.compared w writer hw).mono (hgrow w),
        fun i p hp => (hs.publications i p hp).mono hgrow⟩
    exact publisher_step hmono hnow hstep

omit [DecidableEq K] in
/-- Why an unforced write is ignored: a lower rank, or an equal rank and no newer observation. -/
theorem ignored_cases {kept candidate : SnapshotValue K V} {replaceEqual : Bool}
    (h : writeStatus (some kept) candidate false replaceEqual ≠ .stored) :
    (writeStatus (some kept) candidate false replaceEqual = .ignoredLowerAuthority ∧
      candidate.authorityRank < kept.authorityRank) ∨
    (writeStatus (some kept) candidate false replaceEqual ≠ .ignoredLowerAuthority ∧
      candidate.authorityRank = kept.authorityRank ∧ candidate.observedAt ≤ kept.observedAt) := by
  rcases lt_trichotomy candidate.authorityRank kept.authorityRank with hlow | heq | hhigh
  · exact .inl ⟨by simp [writeStatus, hlow], hlow⟩
  · right
    rcases lt_trichotomy candidate.observedAt kept.observedAt with ho | ho | ho
    · exact ⟨by simp [writeStatus, heq, ho], heq, ho.le⟩
    · refine ⟨?_, heq, ho.le⟩
      cases replaceEqual
      · simp [writeStatus, heq, ho]
      · simp [writeStatus, heq, ho]
    · refine absurd ?_ h
      simp [writeStatus, heq, not_lt.mpr ho.le, ho.ne']
  · refine absurd ?_ h
    simp [writeStatus, hhigh, not_lt.mpr hhigh.le]

omit [DecidableEq K] in
/-- Of two values under one key the older observation leaves its window first. -/
theorem pastWindow_of_observedAt_le {now : ℚ} {policies : K → FreshnessPolicy}
    {older newer : SnapshotValue K V} (hkey : older.key = newer.key)
    (hobserved : older.observedAt ≤ newer.observedAt) (h : PastWindow now policies newer) :
    PastWindow now policies older := by
  have hage : ageAt now newer.observedAt ≤ ageAt now older.observedAt :=
    max_le_max le_rfl (sub_le_sub_left hobserved now)
  rw [PastWindow, ← hkey] at h
  exact lt_of_lt_of_le h (WithTop.coe_le_coe.mpr hage)

end

/-! ## An expired entry of higher rank -/

theorem sixty_nonneg : (0 : ℚ) ≤ 60 := by norm_num

theorem sixty_le_sixty : (60 : ℚ) ≤ 60 := le_rfl

/-- Local state outranks the other sources; values may be read for sixty seconds. -/
def rankedPublisher : ResourcePublisher ℕ ℕ where
  policyFor := fun _ => .blocking 60 60 sixty_nonneg sixty_le_sixty
  rankFor := fun _ source => if source = "local" then 10 else 0
  copier := id
  futureToleranceSeconds := 1
  rejectFutureObservations := true

/-- A local value at time 0, and a later publication of another source at time 100. -/
def lateLowerRank : List (PublisherEvent ℕ ℕ) :=
  [.publishMany 0 [⟨0, 7, "local", none, by decide⟩] false false, .getExisting 0, .setMany 0,
    .cache (.check 0), .cache (.prepared 0), .cache (.check 0), .results 0,
    .publishMany 100 [⟨0, 8, "stream", none, by decide⟩] false false, .getExisting 1, .setMany 1,
    .cache (.check 1), .results 1]

/-- What a finished publication answered: whether it was forced, and for each key whether a higher
rank was kept and how that value stood to a window of sixty seconds when the publication began. -/
def PublisherTasks.answers (s : PublisherTasks ℕ ℕ) (i : ℕ) :
    Option (Bool × List (ℕ × Bool × Bool)) :=
  match s.publications[i]? with
  | some p =>
    match p.phase with
    | .finished results => some (p.force, results.map fun r =>
        (r.1, decide (r.2.status = .ignoredLowerAuthority),
          decide (60 < ageAt p.now r.2.value.observedAt)))
    | _ => none
  | none => none

/-- The second publication is ignored for a value that is a hundred seconds old. -/
theorem lateLowerRank_ignored : ∃ s p results r,
    Run (publisherStep rankedPublisher) (.new (.new none (by simp)) 0) lateLowerRank s ∧
    s.publications[1]? = some p ∧ p.phase = .finished results ∧ p.force = false ∧
    (0, r) ∈ results ∧ r.status = .ignoredLowerAuthority ∧
    60 < ageAt p.now r.value.observedAt := by
  have hend : ((exec (publisherStep rankedPublisher) (.new (.new none (by simp)) 0)
      lateLowerRank).bind fun s => s.answers 1) = some (false, [(0, true, true)]) := by
    decide +kernel
  obtain ⟨s, hs, hanswers⟩ := Option.bind_eq_some_iff.mp hend
  unfold PublisherTasks.answers at hanswers
  split at hanswers
  · rename_i p hp
    split at hanswers
    · rename_i results hphase
      rw [Option.some.injEq, Prod.mk.injEq] at hanswers
      obtain ⟨hforce, hresults⟩ := hanswers
      obtain ⟨⟨k, r⟩, rfl, hr⟩ := List.map_eq_singleton_iff.mp hresults
      rw [Prod.mk.injEq, Prod.mk.injEq] at hr
      obtain ⟨rfl, hstatus, hage⟩ := hr
      exact ⟨s, p, _, r, exec_run hs, hp, hphase, hforce, List.mem_singleton_self _,
        of_decide_eq_true hstatus, of_decide_eq_true hage⟩
    · cases hanswers
  · cases hanswers

end Coalestra
