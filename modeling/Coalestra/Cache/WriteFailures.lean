import Coalestra.Cache.Accounting

/-! # Write calls that raise

`cache/memory.py`: `set_many_if_newer` copies payloads twice, the candidates before its commit and
the results after it. A copy raises, or the copy runner of the cache refuses it once the cache is
closing; either way the call raises. Over the interleaved tasks of the cache the module follows what
each caller was told. -/

namespace Coalestra
set_option autoImplicit false
set_option maxHeartbeats 250000

open AsyncMemoryCache

/-! ## Calls and their answers -/

/-- What the caller of `set_many_if_newer` has been told. -/
inductive WriteAnswer
  | pending
  | returned
  | raised
  deriving DecidableEq, Repr

/-- The tasks of the cache, the answers of the write calls and whether the copy runner is closing. -/
structure CacheCalls (K V : Type) [DecidableEq K] where
  tasks : CacheTasks K V
  answers : List WriteAnswer
  closing : Bool

inductive CallEvent (K V : Type)
  | task (e : CacheEvent K V)
  | delivered (w : ℕ)
  | deliveryFails (w : ℕ)
  | aclose

section
variable {K V : Type} [DecidableEq K]

def CacheCalls.new (maxEntries : Option ℕ) (h : ∀ n, maxEntries = some n → 1 ≤ n) :
    CacheCalls K V := ⟨⟨AsyncMemoryCache.new maxEntries h, []⟩, [], false⟩

/-- The call has committed and copies its results. -/
def CacheCalls.delivering (s : CacheCalls K V) (w : ℕ) : Bool :=
  decide (s.answers[w]? = some .pending) &&
    ((s.tasks.writers[w]?).bind fun writer => writer.phase.results).isSome

/-- What a task step means for the answers. A check round is followed by `map` at once, and a
closing runner refuses it whether the round has committed or not. -/
def settle (copier : V → V) (s : CacheCalls K V) (e : CacheEvent K V) (t : CacheTasks K V) :
    CacheCalls K V :=
  match e with
  | .call values _ _ =>
    { s with
      tasks := t
      answers := s.answers ++
        [if (selectCandidates values).dict.values = [] then .returned else .pending] }
  | .check w =>
    if s.closing then
      { s with
        tasks := (cacheStep copier t (.copyFails w)).getD t
        answers := s.answers.set w .raised }
    else { s with tasks := t }
  | .copyFails w => { s with tasks := t, answers := s.answers.set w .raised }
  | _ => { s with tasks := t }

def callStep (copier : V → V) (s : CacheCalls K V) : CallEvent K V → Option (CacheCalls K V)
  | .task e => (cacheStep copier s.tasks e).map (settle copier s e)
  | .delivered w =>
    if s.delivering w then some { s with answers := s.answers.set w .returned } else none
  | .deliveryFails w =>
    if s.delivering w then some { s with answers := s.answers.set w .raised } else none
  | .aclose => some { s with closing := true }

def CacheEvent.newCalls : CacheEvent K V → ℕ
  | .call _ _ _ => 1
  | _ => 0

/-- The steps of the write call `w` itself. -/
def CallEvent.stepOf (w : ℕ) : CallEvent K V → Prop
  | .task (.check i) => i = w
  | .task (.prepared i) => i = w
  | .task (.copyFails i) => i = w
  | .delivered i => i = w
  | .deliveryFails i => i = w
  | _ => False

/-- The next check round of `w` commits and stores a candidate. -/
def StoresNow (s : CacheTasks K V) (w : ℕ) : Prop :=
  ∃ writer prepared, s.writers[w]? = some writer ∧ writer.phase = .checking prepared ∧
    s.cache.missingCandidates writer.force writer.replaceEqual prepared writer.candidateList = [] ∧
    ∃ v ∈ writer.candidateList,
      writeStatus (s.cache.get? v.key) v writer.force writer.replaceEqual = .stored

/-- The call `w` has stored a value. -/
def HasStored (s : CacheCalls K V) (w : ℕ) : Prop :=
  ∃ r ∈ capturedBy s.tasks w, r.2.status = .stored

/-- The step makes a call raise whose batch stores a value: the copies of its results fail, or its
commit falls under a closing runner. -/
def FailsAfterStoring (s : CacheCalls K V) : CallEvent K V → Prop
  | .deliveryFails w => HasStored s w
  | .task (.check w) => s.closing = true ∧ StoresNow s.tasks w
  | _ => False

/-! ## What a step can do -/

/-- The tasks make no step, one step, or a check round and the refusal of its copies. -/
theorem callStep_tasks {copier : V → V} {s u : CacheCalls K V} {e : CallEvent K V}
    (h : callStep copier s e = some u) : (u.tasks = s.tasks ∧ ∀ e', e ≠ .task e') ∨
      ∃ e' t, e = .task e' ∧ cacheStep copier s.tasks e' = some t ∧
        (u.tasks = t ∨ ∃ i, e' = .check i ∧ cacheStep copier t (.copyFails i) = some u.tasks) := by
  cases e with
  | task e =>
    obtain ⟨t, ht, rfl⟩ := Option.map_eq_some_iff.mp h
    refine .inr ⟨e, t, rfl, ht, ?_⟩
    unfold settle
    split
    · exact .inl rfl
    · rename_i i
      split
      · cases hrefused : cacheStep copier t (.copyFails i) with
        | none => exact .inl rfl
        | some t' => exact .inr ⟨i, rfl, hrefused⟩
      · exact .inl rfl
    · exact .inl rfl
    · exact .inl rfl
  | delivered w =>
    simp only [callStep] at h
    split at h
    · rw [Option.some.injEq] at h
      subst h
      exact .inl ⟨rfl, nofun⟩
    · cases h
  | deliveryFails w =>
    simp only [callStep] at h
    split at h
    · rw [Option.some.injEq] at h
      subst h
      exact .inl ⟨rfl, nofun⟩
    · cases h
  | aclose =>
    rw [callStep, Option.some.injEq] at h
    subst h
    exact .inl ⟨rfl, nofun⟩

theorem callStep_run {copier : V → V} {s u : CacheCalls K V} {e : CallEvent K V}
    (h : callStep copier s e = some u) :
    ∃ es, Run (cacheStep copier) s.tasks es u.tasks := by
  rcases callStep_tasks h with ⟨hsame, _⟩ | ⟨e', t, _, ht, hu | ⟨i, _, hu⟩⟩
  · rw [hsame]
    exact ⟨[], .nil _⟩
  · rw [hu]
    exact ⟨_, .cons trivial ht (.nil t)⟩
  · exact ⟨_, .cons trivial ht (.cons trivial hu (.nil _))⟩

/-- Captured results stay what they are. -/
theorem captured_persist {copier : V → V} {s t : CacheTasks K V} {es : List (CacheEvent K V)}
    (hrun : Run (cacheStep copier) s es t) (hs : s.Sound copier) {w : ℕ}
    {r : K × CapturedWriteResult K V} (hr : r ∈ capturedBy s w) : r ∈ capturedBy t w := by
  have hkeep : t.Sound copier ∧ r ∈ capturedBy t w := by
    refine hrun.invariant (fun t => t.Sound copier ∧ r ∈ capturedBy t w)
      (fun a e b _ ⟨ha, hra⟩ hstep => ⟨sound_step ha hstep, ?_⟩) ⟨hs, hr⟩
    cases hw : a.writers[w]? with
    | none =>
      rw [capturedBy, hw] at hra
      exact absurd hra List.not_mem_nil
    | some writer =>
      have hcaptured : capturedBy a w = (writer.phase.results).getD [] := by
        rw [capturedBy, hw, Option.bind_some]
      cases hphase : writer.phase.results with
      | none =>
        rw [hcaptured, hphase] at hra
        exact absurd hra List.not_mem_nil
      | some results =>
        -- A call that has committed makes no further step of its own.
        have hsame : b.writers[w]? = some writer := by
          cases writer_step ha hstep hw with
          | other hsame _ => exact hsame
          | phase _ _ _ hnone _ _ => rw [hphase] at hnone; cases hnone
          | commit _ _ _ hnone _ _ => rw [hphase] at hnone; cases hnone
        rw [capturedBy, hsame, Option.bind_some, ← hcaptured]
        exact hra
  exact hkeep.2

/-- A batch of which nothing is stored changes nothing. -/
theorem commitCandidates_quiet {force replaceEqual : Bool} {prepared : CacheEntries K V} :
    ∀ {candidates : List (SnapshotValue K V)} {c d : AsyncMemoryCache K V}
      {results : List (K × CapturedWriteResult K V)},
      commitCandidates force replaceEqual prepared candidates c = some (results, d) →
        (∀ r ∈ results, r.2.status ≠ .stored) → d = c
  | [], c, d, results, h, _ => by
      rw [commitCandidates, Option.some.injEq, Prod.mk.injEq] at h
      exact h.2.symm
  | v :: candidates, c, d, results, h, hquiet => by
      obtain ⟨⟨result, c'⟩, hfirst, h⟩ := Option.bind_eq_some_iff.mp h
      obtain ⟨⟨rest, d'⟩, hrest, h⟩ := Option.bind_eq_some_iff.mp h
      rw [Option.some.injEq, Prod.mk.injEq] at h
      obtain ⟨rfl, rfl⟩ := h
      have hignored : result.status ≠ .stored := hquiet _ List.mem_cons_self
      have hsame : c' = c := by
        simp only [commitOne] at hfirst
        split at hfirst
        · obtain ⟨stored, -, he⟩ := Option.map_eq_some_iff.mp hfirst
          rw [Prod.mk.injEq] at he
          rw [← he.1] at hignored
          exact absurd rfl hignored
        · obtain ⟨current, -, he⟩ := Option.map_eq_some_iff.mp hfirst
          rw [Prod.mk.injEq] at he
          exact he.2.symm
      rw [commitCandidates_quiet hrest fun r hr => hquiet r (List.mem_cons_of_mem _ hr), hsame]

/-- Within the limit nothing is evicted. -/
theorem enforceLimitLocked_entries {c : AsyncMemoryCache K V}
    (h : ∀ n, c.maxEntries = some n → c.entries.size ≤ n) :
    c.enforceLimitLocked.entries = c.entries := by
  unfold enforceLimitLocked
  split
  · rfl
  · rename_i limit hlimit
    have hnone : c.entries.size - limit = 0 := Nat.sub_eq_zero_of_le (h limit hlimit)
    simp only [hnone, CacheEntries.popSurplus]

/-- A check round of a call stores a value exactly when its condition says so, and otherwise leaves
the entries alone. -/
theorem check_stores {copier : V → V} {s t : CacheTasks K V} {w : ℕ}
    (h : cacheStep copier s (.check w) = some t)
    (hbounded : ∀ n, s.cache.maxEntries = some n → s.cache.entries.size ≤ n) :
    (StoresNow s w ↔ ∃ r ∈ capturedBy t w, r.2.status = .stored) ∧
      (¬ StoresNow s w → t.cache.entries = s.cache.entries) := by
  cases cacheStep_cases h with
  | commit w writer prepared results cache hw hphase hmissing hcommit ht =>
    subst ht
    have hcaptured : capturedBy (setPhase s w writer (.committed results) cache) w = results := by
      rw [capturedBy, setPhase_get? hw, if_pos rfl]
      rfl
    have hnd : (writer.candidateList.map SnapshotValue.key).Nodup := by
      rw [Writer.candidateList, CacheEntries.map_key_values]
      exact writer.candidates.dict.nodup
    obtain ⟨⟨results', mid⟩, hmid, he⟩ := Option.map_eq_some_iff.mp hcommit
    rw [Prod.mk.injEq] at he
    obtain ⟨rfl, rfl⟩ := he
    obtain ⟨d, hspec, _⟩ := commitCandidates_spec hnd (prepared_of_no_missing hmissing)
    rw [hmid, Option.some.injEq, Prod.mk.injEq] at hspec
    rw [hcaptured]
    have hiff : StoresNow s w ↔ ∃ r ∈ results', r.2.status = .stored := by
      rw [hspec.1]
      constructor
      · rintro ⟨writer', prepared', hw', _, _, v, hv, hstatus⟩
        rw [hw, Option.some.injEq] at hw'
        subst hw'
        exact ⟨_, List.mem_map_of_mem hv, hstatus⟩
      · rintro ⟨r, hr, hstatus⟩
        obtain ⟨v, hv, rfl⟩ := List.mem_map.mp hr
        exact ⟨writer, prepared, hw, hphase, hmissing, v, hv, hstatus⟩
    refine ⟨hiff, fun hnot => ?_⟩
    have hsame : mid = s.cache := by
      refine commitCandidates_quiet hmid fun r hr hstatus => hnot (hiff.mpr ⟨r, hr, hstatus⟩)
    rw [hsame]
    exact enforceLimitLocked_entries hbounded
  | recheck w writer prepared missing hw hphase hne hmissing ht =>
    subst ht
    have hnot : ¬ StoresNow s w := by
      rintro ⟨writer', prepared', hw', hphase', hnone, _⟩
      rw [hw, Option.some.injEq] at hw'
      subst hw'
      rw [hphase, WriterPhase.checking.injEq] at hphase'
      subst hphase'
      exact hne (hmissing.trans hnone)
    have hcaptured : capturedBy (setPhase s w writer (.preparing missing prepared) s.cache) w =
        [] := by
      rw [capturedBy, setPhase_get? hw, if_pos rfl]
      rfl
    rw [hcaptured]
    refine ⟨⟨fun h => absurd h hnot, ?_⟩, fun _ => rfl⟩
    rintro ⟨r, hr, _⟩
    exact absurd hr List.not_mem_nil
  | removal _ hchecks _ _ => simpa [CacheEvent.checks] using hchecks w

/-- Results are captured by the call's own commit only. -/
theorem captured_step {copier : V → V} {s t : CacheTasks K V} {e : CacheEvent K V}
    (hs : s.Sound copier) (h : cacheStep copier s e = some t) {w : ℕ} (he : e ≠ .check w)
    {r : K × CapturedWriteResult K V} (hr : r ∈ capturedBy t w) : r ∈ capturedBy s w := by
  cases hw : s.writers[w]? with
  | some writer =>
    cases writer_step hs h hw with
    | other hsame _ =>
      rw [capturedBy, hsame] at hr
      rwa [capturedBy, hw]
    | phase phase hsame _ _ hnone _ =>
      rw [capturedBy, hsame, Option.bind_some, hnone] at hr
      exact absurd hr List.not_mem_nil
    | commit results hcheck _ _ _ _ => exact absurd hcheck he
  | none =>
    -- A call that has just begun has captured nothing.
    rw [capturedBy] at hr
    cases cacheStep_cases h with
    | call values force replaceEqual ht =>
      subst ht
      rw [List.getElem?_append_right (List.getElem?_eq_none_iff.mp hw)] at hr
      cases hi : w - s.writers.length with
      | zero =>
        rw [hi, List.getElem?_cons_zero, Option.bind_some, startWriter] at hr
        split at hr
        · exact absurd hr List.not_mem_nil
        · exact absurd hr List.not_mem_nil
      | succ i =>
        rw [hi] at hr
        exact absurd hr List.not_mem_nil
    | commit i _ _ _ _ hi _ _ _ ht =>
      rw [ht, setPhase_absent hi hw] at hr
      exact absurd hr List.not_mem_nil
    | recheck i _ _ _ hi _ _ _ ht =>
      rw [ht, setPhase_absent hi hw] at hr
      exact absurd hr List.not_mem_nil
    | prepared i _ _ _ hi _ ht =>
      rw [ht, setPhase_absent hi hw] at hr
      exact absurd hr List.not_mem_nil
    | copyFails i _ _ _ hi _ ht =>
      rw [ht, setPhase_absent hi hw] at hr
      exact absurd hr List.not_mem_nil
    | removal _ _ hwriters _ =>
      rw [hwriters, hw] at hr
      exact absurd hr List.not_mem_nil

/-! ## Calls that have ended -/

/-- The call still makes check rounds or storage copies. -/
def Writer.working (writer : Writer K V) : Bool :=
  match writer.phase with
  | .checking _ => true
  | .preparing _ _ => true
  | _ => false

theorem StoresNow.working {s : CacheTasks K V} {w : ℕ} {writer : Writer K V} (h : StoresNow s w)
    (hw : s.writers[w]? = some writer) : writer.working = true := by
  obtain ⟨writer', prepared, hw', hphase, _⟩ := h
  rw [hw, Option.some.injEq] at hw'
  subst hw'
  rw [Writer.working, hphase]

theorem ended_step {copier : V → V} {s t : CacheTasks K V} {e : CacheEvent K V}
    (h : cacheStep copier s e = some t) {w : ℕ} {writer : Writer K V}
    (hw : s.writers[w]? = some writer) (hended : writer.working = false) :
    t.writers[w]? = some writer := by
  have hother : ∀ {i : ℕ} {writer' : Writer K V} {phase : WriterPhase K V}
      {cache : AsyncMemoryCache K V}, s.writers[i]? = some writer' → writer'.working = true →
      (setPhase s i writer' phase cache).writers[w]? = some writer := by
    intro i writer' phase cache hi hworking
    rw [setPhase_get? hi, if_neg, hw]
    rintro rfl
    rw [hw, Option.some.injEq] at hi
    rw [hi, hworking] at hended
    cases hended
  cases cacheStep_cases h with
  | call values force replaceEqual ht =>
    subst ht
    rwa [List.getElem?_append_left (List.getElem?_eq_some_iff.mp hw).1]
  | commit i writer' _ _ _ hi hphase _ _ ht =>
    rw [ht]
    exact hother hi (by rw [Writer.working, hphase])
  | recheck i writer' _ _ hi hphase _ _ ht =>
    rw [ht]
    exact hother hi (by rw [Writer.working, hphase])
  | prepared i writer' _ _ hi hphase ht =>
    rw [ht]
    exact hother hi (by rw [Writer.working, hphase])
  | copyFails i writer' _ _ hi hphase ht =>
    rw [ht]
    exact hother hi (by rw [Writer.working, hphase])
  | removal _ _ hwriters _ => rwa [hwriters]

theorem ended_of_results {writer : Writer K V} {results : List (K × CapturedWriteResult K V)}
    (h : writer.phase.results = some results) : writer.working = false := by
  unfold Writer.working
  cases hphase : writer.phase with
  | checking _ => rw [hphase] at h; cases h
  | preparing _ _ => rw [hphase] at h; cases h
  | committed _ => rfl
  | failed => rfl

theorem copyFails_ended {copier : V → V} {s t : CacheTasks K V} {w : ℕ}
    (h : cacheStep copier s (.copyFails w) = some t) :
    ∃ writer, t.writers[w]? = some writer ∧ writer.working = false := by
  simp only [cacheStep] at h
  split at h
  · rename_i writer hw
    split at h
    · rw [Option.some.injEq] at h
      subst h
      exact ⟨{ writer with phase := .failed }, by rw [setPhase_get? hw, if_pos rfl], rfl⟩
    · cases h
  · cases h

/-- A check round of `w` and, where it asks for copies, their refusal end the call. -/
theorem refused_ended {copier : V → V} {s t : CacheTasks K V} {w : ℕ}
    (h : cacheStep copier s (.check w) = some t) :
    ∃ writer, ((cacheStep copier t (.copyFails w)).getD t).writers[w]? = some writer ∧
      writer.working = false := by
  cases cacheStep_cases h with
  | commit w writer prepared results cache hw _ _ _ ht =>
    subst ht
    have hself : (setPhase s w writer (.committed results) cache).writers[w]? =
        some { writer with phase := .committed results } := by
      rw [setPhase_get? hw, if_pos rfl]
    refine ⟨{ writer with phase := .committed results }, ?_, rfl⟩
    rw [cacheStep, hself]
    exact hself
  | recheck w writer prepared missing hw _ _ _ ht =>
    subst ht
    have hself : (setPhase s w writer (.preparing missing prepared) s.cache).writers[w]? =
        some { writer with phase := .preparing missing prepared } := by
      rw [setPhase_get? hw, if_pos rfl]
    refine ⟨{ writer with phase := .failed }, ?_, rfl⟩
    rw [cacheStep, hself]
    simp only [Option.getD_some]
    rw [setPhase_get? hself, if_pos rfl]
  | removal _ hchecks _ _ => simpa [CacheEvent.checks] using hchecks w

/-- What holds of every reachable state: calls are sound, the limit is kept, a call that has raised
works no more, and every call has its answer. -/
structure CacheCalls.Reached (copier : V → V) (s : CacheCalls K V) : Prop where
  sound : s.tasks.Sound copier
  bounded : ∀ n, s.tasks.cache.maxEntries = some n → s.tasks.cache.entries.size ≤ n
  ended : ∀ w : ℕ, s.answers[w]? = some .raised →
    ∃ writer, s.tasks.writers[w]? = some writer ∧ writer.working = false
  answered : s.answers.length = s.tasks.writers.length

/-- Only a new call adds a writer. -/
theorem CacheChange.length {copier : V → V} {s t : CacheTasks K V} {e : CacheEvent K V}
    (h : CacheChange copier s t e) (he : e.newCalls = 0) :
    t.writers.length = s.writers.length := by
  cases h with
  | call _ _ _ _ => cases he
  | commit _ _ _ _ _ _ _ _ _ ht => rw [ht]; exact List.length_set
  | recheck _ _ _ _ _ _ _ _ ht => rw [ht]; exact List.length_set
  | prepared _ _ _ _ _ _ ht => rw [ht]; exact List.length_set
  | copyFails _ _ _ _ _ _ ht => rw [ht]; exact List.length_set
  | removal _ _ hwriters _ => rw [hwriters]

theorem writers_length {copier : V → V} {s t : CacheTasks K V} {e : CacheEvent K V}
    (h : cacheStep copier s e = some t) : t.writers.length = s.writers.length + e.newCalls := by
  cases e with
  | call values force replaceEqual =>
    rw [cacheStep, Option.some.injEq] at h
    subst h
    exact List.length_append
  | _ => exact (cacheStep_cases h).length rfl

/-- Who has raised after a step: who had before, or the call whose step failed. -/
theorem raised_step {copier : V → V} {s u : CacheCalls K V} {e : CallEvent K V}
    (h : callStep copier s e = some u) {w : ℕ} (hw : u.answers[w]? = some .raised) :
    s.answers[w]? = some .raised ∨ e = .task (.copyFails w) ∨ e = .deliveryFails w ∨
      (e = .task (.check w) ∧ s.closing = true) := by
  have hset : ∀ {i : ℕ} {a : WriteAnswer}, (s.answers.set i a)[w]? = some .raised →
      s.answers[w]? = some .raised ∨ (i = w ∧ a = .raised) := by
    intro i a hi
    rw [List.getElem?_set] at hi
    by_cases hiw : i = w
    · rw [if_pos hiw] at hi
      split at hi
      · rw [Option.some.injEq] at hi
        exact .inr ⟨hiw, hi⟩
      · cases hi
    · rw [if_neg hiw] at hi
      exact .inl hi
  cases e with
  | task e =>
    obtain ⟨t, ht, rfl⟩ := Option.map_eq_some_iff.mp h
    cases e with
    | call values force replaceEqual =>
      simp only [settle, List.getElem?_append] at hw
      split at hw
      · exact .inl hw
      · rw [List.getElem?_singleton] at hw
        split at hw
        · split at hw <;> cases hw
        · cases hw
    | check i =>
      simp only [settle] at hw
      split at hw
      · rename_i hclosing
        rcases hset hw with hw | ⟨rfl, _⟩
        · exact .inl hw
        · exact .inr (.inr (.inr ⟨rfl, hclosing⟩))
      · exact .inl hw
    | copyFails i =>
      rcases hset hw with hw | ⟨rfl, _⟩
      · exact .inl hw
      · exact .inr (.inl rfl)
    | prepared _ => exact .inl hw
    | getMany _ _ _ => exact .inl hw
    | invalidateMany _ => exact .inl hw
    | invalidateMatching _ => exact .inl hw
    | prune _ _ => exact .inl hw
    | clear => exact .inl hw
  | delivered i =>
    simp only [callStep] at h
    split at h
    · rw [Option.some.injEq] at h
      subst h
      rcases hset hw with hw | ⟨_, ha⟩
      · exact .inl hw
      · cases ha
    · cases h
  | deliveryFails i =>
    simp only [callStep] at h
    split at h
    · rw [Option.some.injEq] at h
      subst h
      rcases hset hw with hw | ⟨rfl, _⟩
      · exact .inl hw
      · exact .inr (.inr (.inl rfl))
    · cases h
  | aclose =>
    rw [callStep, Option.some.injEq] at h
    subst h
    exact .inl hw

theorem answered_step {copier : V → V} {s u : CacheCalls K V} {e : CallEvent K V}
    (hs : s.answers.length = s.tasks.writers.length) (h : callStep copier s e = some u) :
    u.answers.length = u.tasks.writers.length := by
  cases e with
  | task e =>
    obtain ⟨t, ht, rfl⟩ := Option.map_eq_some_iff.mp h
    have hlength := writers_length ht
    unfold settle
    split
    · rw [List.length_append, hs, hlength]
      rfl
    · split
      · rename_i i _
        cases hrefused : cacheStep copier t (.copyFails i) with
        | none => rw [Option.getD_none, List.length_set, hs, hlength]; rfl
        | some t' =>
          rw [Option.getD_some, List.length_set, hs, writers_length hrefused, hlength]
          rfl
      · rw [hs, hlength]
        rfl
    · rw [List.length_set, hs, hlength]
      rfl
    · rename_i hcall _ _
      rw [hs, hlength]
      cases e with
      | call values force replaceEqual => exact absurd rfl (hcall values force replaceEqual)
      | _ => rfl
  | delivered w =>
    simp only [callStep] at h
    split at h
    · rw [Option.some.injEq] at h
      subst h
      rw [List.length_set, hs]
    · cases h
  | deliveryFails w =>
    simp only [callStep] at h
    split at h
    · rw [Option.some.injEq] at h
      subst h
      rw [List.length_set, hs]
    · cases h
  | aclose =>
    rw [callStep, Option.some.injEq] at h
    subst h
    exact hs

theorem reached_step {copier : V → V} {s u : CacheCalls K V} {e : CallEvent K V}
    (hs : s.Reached copier) (h : callStep copier s e = some u) : u.Reached copier := by
  obtain ⟨es, hrun⟩ := callStep_run h
  refine ⟨?_, ?_, fun w hw => ?_, answered_step hs.answered h⟩
  · exact hrun.invariant (fun t => t.Sound copier) (fun _ _ _ _ ha hb => sound_step ha hb) hs.sound
  · exact hrun.invariant (fun t => ∀ n, t.cache.maxEntries = some n → t.cache.entries.size ≤ n)
      (fun _ _ _ _ ha hb => step_bounded hb ha) hs.bounded
  rcases raised_step h hw with hold | rfl | rfl | ⟨rfl, hclosing⟩
  · obtain ⟨writer, hwriter, hended⟩ := hs.ended w hold
    refine ⟨writer, ?_, hended⟩
    exact hrun.invariant (fun t => t.writers[w]? = some writer)
      (fun _ _ _ _ ha hb => ended_step hb ha hended) hwriter
  · obtain ⟨t, ht, rfl⟩ := Option.map_eq_some_iff.mp h
    exact copyFails_ended ht
  · simp only [callStep] at h
    split at h
    · rename_i hdelivering
      rw [Option.some.injEq] at h
      subst h
      rw [CacheCalls.delivering, Bool.and_eq_true, Option.isSome_iff_exists] at hdelivering
      obtain ⟨results, hresults⟩ := hdelivering.2
      obtain ⟨writer, hwriter, hphase⟩ := Option.bind_eq_some_iff.mp hresults
      exact ⟨writer, hwriter, ended_of_results hphase⟩
    · cases h
  · obtain ⟨t, ht, rfl⟩ := Option.map_eq_some_iff.mp h
    simp only [settle, hclosing, if_true]
    exact refused_ended ht

/-- A call that has raised stays so. -/
theorem raised_persist {copier : V → V} {s u : CacheCalls K V} {e : CallEvent K V}
    (h : callStep copier s e = some u) {w : ℕ} (hw : s.answers[w]? = some .raised) :
    u.answers[w]? = some .raised := by
  have hlt : w < s.answers.length := (List.getElem?_eq_some_iff.mp hw).1
  have hset : ∀ i : ℕ, (s.answers.set i .raised)[w]? = some .raised := by
    intro i
    rw [List.getElem?_set]
    by_cases hiw : i = w
    · subst hiw
      rw [if_pos rfl, if_pos hlt]
    · rwa [if_neg hiw]
  cases e with
  | task e =>
    obtain ⟨t, ht, rfl⟩ := Option.map_eq_some_iff.mp h
    unfold settle
    split
    · rwa [List.getElem?_append_left hlt]
    · split
      · exact hset _
      · exact hw
    · exact hset _
    · exact hw
  | delivered i =>
    simp only [callStep] at h
    split at h
    · rename_i hdelivering
      rw [Option.some.injEq] at h
      subst h
      rw [CacheCalls.delivering, Bool.and_eq_true, decide_eq_true_eq] at hdelivering
      have hiw : i ≠ w := by
        rintro rfl
        rw [hw] at hdelivering
        cases hdelivering.1
      rwa [List.getElem?_set_ne hiw]
    · cases h
  | deliveryFails i =>
    simp only [callStep] at h
    split at h
    · rw [Option.some.injEq] at h
      subst h
      exact hset i
    · cases h
  | aclose =>
    rw [callStep, Option.some.injEq] at h
    subst h
    exact hw

theorem hasStored_step {copier : V → V} {s u : CacheCalls K V} {e : CallEvent K V}
    (hs : s.Reached copier) (h : callStep copier s e = some u) {w : ℕ} (hstored : HasStored u w) :
    HasStored s w ∨ (e = .task (.check w) ∧ StoresNow s.tasks w) := by
  obtain ⟨r, hr, hstatus⟩ := hstored
  rcases callStep_tasks h with ⟨hsame, _⟩ | ⟨e', t, rfl, ht, hu⟩
  · rw [hsame] at hr
    exact .inl ⟨r, hr, hstatus⟩
  · have hsound := sound_step hs.sound ht
    have hrt : r ∈ capturedBy t w := by
      rcases hu with hu | ⟨i, _, hu⟩
      · rwa [hu] at hr
      · exact captured_step hsound hu nofun hr
    by_cases hcheck : e' = .check w
    · subst hcheck
      exact .inr ⟨rfl, (check_stores ht hs.bounded).1.mpr ⟨r, hrt, hstatus⟩⟩
    · exact .inl ⟨r, captured_step hs.sound ht hcheck hrt, hstatus⟩

theorem hasStored_persist {copier : V → V} {s u : CacheCalls K V} {e : CallEvent K V}
    (hs : s.Reached copier) (h : callStep copier s e = some u) {w : ℕ} (hstored : HasStored s w) :
    HasStored u w := by
  obtain ⟨r, hr, hstatus⟩ := hstored
  obtain ⟨es, hrun⟩ := callStep_run h
  exact ⟨r, captured_persist hrun hs.sound hr, hstatus⟩

theorem hasStored_run {copier : V → V} {es : List (CallEvent K V)} {s t : CacheCalls K V}
    (hrun : Run (callStep copier) s es t) (hs : s.Reached copier) {w : ℕ}
    (hstored : HasStored s w) : HasStored t w := by
  have h := hrun.invariant (fun t => t.Reached copier ∧ HasStored t w)
    (fun _ _ _ _ ⟨ha, hsa⟩ hb => ⟨reached_step ha hb, hasStored_persist ha hb hsa⟩) ⟨hs, hstored⟩
  exact h.2

/-- A step of a call that stores nothing leaves the entries alone. -/
theorem stepOf_quiet {copier : V → V} {s u : CacheCalls K V} {e : CallEvent K V}
    (hs : s.Reached copier) (h : callStep copier s e = some u) {w : ℕ} (hown : e.stepOf w)
    (hnot : ¬ HasStored u w) : u.tasks.cache.entries = s.tasks.cache.entries := by
  rcases callStep_tasks h with ⟨hsame, _⟩ | ⟨e', t, rfl, ht, hu⟩
  · rw [hsame]
  · have hcache : u.tasks.cache.entries = t.cache.entries := by
      rcases hu with hu | ⟨i, _, hu⟩
      · rw [hu]
      · rw [copies_outside_lock (.inr rfl) hu]
    rw [hcache]
    cases e' with
    | check i =>
      have hi : i = w := hown
      subst hi
      refine (check_stores ht hs.bounded).2 fun hnow => hnot ?_
      obtain ⟨r, hr, hstatus⟩ := (check_stores ht hs.bounded).1.mp hnow
      refine ⟨r, ?_, hstatus⟩
      rcases hu with hu | ⟨i, _, hu⟩
      · rwa [hu]
      · exact captured_persist (.cons trivial hu (.nil _)) (sound_step hs.sound ht) hr
    | prepared i => rw [copies_outside_lock (.inl rfl) ht]
    | copyFails i => rw [copies_outside_lock (.inr rfl) ht]
    | call _ _ _ => exact hown.elim
    | getMany _ _ _ => exact hown.elim
    | invalidateMany _ => exact hown.elim
    | invalidateMatching _ => exact hown.elim
    | prune _ _ => exact hown.elim
    | clear => exact hown.elim

/-! ## What a caller is told -/

section
variable {copier : V → V} {maxEntries : Option ℕ} {hpos : ∀ n, maxEntries = some n → 1 ≤ n}

theorem reached_new : (CacheCalls.new maxEntries hpos : CacheCalls K V).Reached copier :=
  ⟨nofun, fun n _ => Nat.zero_le n, nofun, rfl⟩

theorem reached_run {es : List (CallEvent K V)} {s t : CacheCalls K V}
    (hrun : Run (callStep copier) s es t) (hs : s.Reached copier) : t.Reached copier :=
  hrun.invariant (fun t => t.Reached copier) (fun _ _ _ _ ha hb => reached_step ha hb) hs

/-- A failure after storing is what the caller is told at the end. -/
theorem failure_persists {es : List (CallEvent K V)} {s t : CacheCalls K V}
    (hrun : Run (callStep copier) s es t) (hs : s.Reached copier) {w : ℕ}
    (hraised : s.answers[w]? = some .raised) (hstored : HasStored s w) :
    t.answers[w]? = some .raised ∧ HasStored t w :=
  ⟨hrun.invariant (fun t => t.answers[w]? = some .raised)
    (fun _ _ _ _ ha hb => raised_persist hb ha) hraised, hasStored_run hrun hs hstored⟩

/-- A call that checks or makes storage copies has captured no result. -/
theorem nothing_captured {s : CacheCalls K V} {t : CacheTasks K V} {e : CacheEvent K V} {w : ℕ}
    (he : e = .check w ∨ e = .copyFails w) (h : cacheStep copier s.tasks e = some t) :
    ¬ HasStored s w := by
  rintro ⟨r, hr, _⟩
  unfold capturedBy at hr
  rcases he with rfl | rfl
  all_goals
    simp only [cacheStep] at h
    split at h
    · rename_i writer hw
      rw [hw, Option.bind_some] at hr
      split at h
      · rename_i hphase
        rw [hphase] at hr
        exact absurd hr List.not_mem_nil
      · cases h
    · cases h

/-- A step that fails after storing leaves a call that has raised and stored. -/
theorem failsAfterStoring_step {s u : CacheCalls K V} {e : CallEvent K V}
    (hs : s.Reached copier) (h : callStep copier s e = some u) (hfails : FailsAfterStoring s e) :
    ∃ w : ℕ, u.answers[w]? = some .raised ∧ HasStored u w := by
  cases e with
  | task e =>
    obtain ⟨t, ht, rfl⟩ := Option.map_eq_some_iff.mp h
    cases e with
    | check w =>
      obtain ⟨hclosing, hnow⟩ := hfails
      have hnow' := hnow
      obtain ⟨writer, _, hw, _⟩ := hnow'
      have hlt : w < s.answers.length := by
        rw [hs.answered]
        exact (List.getElem?_eq_some_iff.mp hw).1
      obtain ⟨r, hr, hstatus⟩ := (check_stores ht hs.bounded).1.mp hnow
      refine ⟨w, ?_, r, ?_, hstatus⟩
      · simp only [settle, hclosing, if_true]
        rw [List.getElem?_set_self hlt]
      · simp only [settle, hclosing, if_true]
        cases hrefused : cacheStep copier t (.copyFails w) with
        | none => exact hr
        | some t' =>
          exact captured_persist (.cons trivial hrefused (.nil t')) (sound_step hs.sound ht) hr
    | _ => exact hfails.elim
  | deliveryFails w =>
    simp only [callStep] at h
    split at h
    · rename_i hdelivering
      rw [Option.some.injEq] at h
      subst h
      rw [CacheCalls.delivering, Bool.and_eq_true, decide_eq_true_eq] at hdelivering
      refine ⟨w, ?_, hfails⟩
      rw [List.getElem?_set_self (List.getElem?_eq_some_iff.mp hdelivering.1).1]
    · cases h
  | delivered _ => exact hfails.elim
  | aclose => exact hfails.elim

/-- Where no step fails after storing, a call that has raised has stored nothing. -/
theorem raised_stored_nothing {es : List (CallEvent K V)} {s t : CacheCalls K V}
    (hrun : RunOf (callStep copier) (fun s e => ¬ FailsAfterStoring s e) s es t)
    (hs : s.Reached copier)
    (hclean : ∀ w : ℕ, s.answers[w]? = some .raised → ¬ HasStored s w) :
    ∀ w : ℕ, t.answers[w]? = some .raised → ¬ HasStored t w := by
  refine (hrun.invariant
    (fun t => t.Reached copier ∧ ∀ w : ℕ, t.answers[w]? = some .raised → ¬ HasStored t w)
    ?_ ⟨hs, hclean⟩).2
  rintro a e b hok ⟨ha, hca⟩ hb
  refine ⟨reached_step ha hb, fun w hw hstored => ?_⟩
  rcases hasStored_step ha hb hstored with hold | ⟨rfl, hnow⟩
  · rcases raised_step hb hw with hraised | rfl | rfl | ⟨rfl, hclosing⟩
    · exact hca w hraised hold
    · obtain ⟨t, ht, rfl⟩ := Option.map_eq_some_iff.mp hb
      exact nothing_captured (.inr rfl) ht hold
    · exact hok hold
    · obtain ⟨t, ht, rfl⟩ := Option.map_eq_some_iff.mp hb
      exact nothing_captured (.inl rfl) ht hold
  · rcases raised_step hb hw with hraised | he | he | ⟨_, hclosing⟩
    · obtain ⟨writer, hwriter, hended⟩ := ha.ended w hraised
      rw [hnow.working hwriter] at hended
      cases hended
    · cases he
    · cases he
    · exact hok ⟨hclosing, hnow⟩

/-- Every step of the call `w` along the run left the entries as it found them. -/
def LeavesEntries (copier : V → V) (s : CacheCalls K V) (es : List (CallEvent K V)) (w : ℕ) :
    Prop :=
  ∀ before e rest a b, es = before ++ e :: rest → Run (callStep copier) s before a →
    callStep copier a e = some b → e.stepOf w →
      b.tasks.cache.entries = a.tasks.cache.entries

theorem run_ok_iff {es : List (CallEvent K V)} {s t : CacheCalls K V}
    (hrun : Run (callStep copier) s es t) (hs : s.Reached copier) :
    (∀ w : ℕ, t.answers[w]? = some .raised → ¬ HasStored t w) →
      RunOf (callStep copier) (fun s e => ¬ FailsAfterStoring s e) s es t := by
  intro hclean
  induction hrun with
  | nil s => exact .nil s
  | cons _ hstep hrest ih =>
    have hu := reached_step hs hstep
    refine .cons (fun hfails => ?_) hstep (ih hu hclean)
    obtain ⟨w, hraised, hstored⟩ := failsAfterStoring_step hs hstep hfails
    obtain ⟨hraised', hstored'⟩ := failure_persists hrest hu hraised hstored
    exact hclean w hraised' hstored'

end

/-- In a run every write call that has raised left the entries alone and stored nothing, exactly
when no step of the run makes a call raise whose batch stores a value. -/
theorem failed_writes_change_nothing {copier : V → V} {maxEntries : Option ℕ}
    {hpos : ∀ n, maxEntries = some n → 1 ≤ n} {es : List (CallEvent K V)} {t : CacheCalls K V}
    (hrun : Run (callStep copier) (.new maxEntries hpos) es t) :
    (∀ w : ℕ, t.answers[w]? = some .raised →
        LeavesEntries copier (.new maxEntries hpos) es w ∧ ¬ HasStored t w) ↔
      RunOf (callStep copier) (fun s e => ¬ FailsAfterStoring s e) (.new maxEntries hpos) es t := by
  constructor
  · exact fun h => run_ok_iff hrun reached_new fun w hw => (h w hw).2
  · intro hok w hw
    have hnot := raised_stored_nothing hok reached_new (fun _ hraised => by cases hraised) w hw
    refine ⟨fun before e rest a b hes hbefore hstep hown => ?_, hnot⟩
    have ha := reached_run hbefore reached_new
    refine stepOf_quiet ha hstep hown fun hstored => hnot ?_
    have hrest : Run (callStep copier) b rest t := by
      have hprefix : Run (callStep copier) (.new maxEntries hpos) (before ++ [e]) b :=
        hbefore.append (.cons trivial hstep (.nil b))
      refine hprefix.continues ?_
      rwa [List.append_assoc, List.singleton_append, ← hes]
    exact hasStored_run hrest (reached_step ha hstep) hstored

end

/-! ## A copy of the results fails -/

def noCalls : CacheCalls ℕ ℕ := .new none AsyncMemoryCache.unlimited

def writesOne : CallEvent ℕ ℕ :=
  .task (.call [⟨1, 7, "rest", 0, 0, 0, false, false, 0, 1, .empty⟩] false false)

/-- Up to the commit. -/
def readyToStore : List (CallEvent ℕ ℕ) :=
  [writesOne, .task (.check 0), .task (.prepared 0)]

/-- The value is stored, and the caller is told that the write failed. -/
theorem stored_and_raised : ¬ ∀ (es : List (CallEvent ℕ ℕ)) (t : CacheCalls ℕ ℕ),
    Run (callStep id) noCalls es t → ∀ w : ℕ, t.answers[w]? = some .raised →
      LeavesEntries id noCalls es w := by
  intro h
  have hsome : ((exec (callStep id) noCalls readyToStore).bind fun a =>
      (callStep id a (.task (.check 0))).bind fun b =>
        (callStep id b (.deliveryFails 0)).map fun t => (a, b, t)).any (fun r =>
          decide (r.2.2.answers[0]? = some .raised ∧ (r.1.tasks.cache.get? 1).isNone = true ∧
            (r.2.1.tasks.cache.get? 1).isSome = true)) = true := by decide +kernel
  obtain ⟨⟨a, b, t⟩, hall, hview⟩ := (Option.any_eq_true _ _).mp hsome
  obtain ⟨hraised, hbefore, hafter⟩ := of_decide_eq_true hview
  obtain ⟨a', ha, hall⟩ := Option.bind_eq_some_iff.mp hall
  obtain ⟨b', hb, hall⟩ := Option.bind_eq_some_iff.mp hall
  obtain ⟨t', ht, heq⟩ := Option.map_eq_some_iff.mp hall
  rw [Prod.mk.injEq, Prod.mk.injEq] at heq
  obtain ⟨rfl, rfl, rfl⟩ := heq
  have hrun : Run (callStep id) noCalls
      (readyToStore ++ [.task (.check 0), .deliveryFails 0]) t' :=
    (exec_run ha).append (.cons trivial hb (.cons trivial ht (.nil t')))
  have hsame := h _ t' hrun 0 hraised readyToStore _ _ a' b' rfl (exec_run ha) hb rfl
  rw [AsyncMemoryCache.get?, ← hsame, ← AsyncMemoryCache.get?] at hbefore
  rw [Option.isNone_iff_eq_none] at hbefore
  rw [hbefore] at hafter
  cases hafter

/-- No result copy fails and the runner is open. -/
def openRunner (s : CacheCalls ℕ ℕ) : CallEvent ℕ ℕ → Bool
  | .deliveryFails _ => false
  | _ => !s.closing

theorem openRunner_ok {s : CacheCalls ℕ ℕ} {e : CallEvent ℕ ℕ} (h : openRunner s e = true) :
    ¬ FailsAfterStoring s e := by
  cases e with
  | task e =>
    cases e with
    | check w =>
      rintro ⟨hclosing, _⟩
      simp [openRunner, hclosing] at h
    | _ => exact fun hf => hf
  | deliveryFails w => cases h
  | _ => exact fun hf => hf

/-- A storage copy fails before the commit. -/
theorem failed_writes_change_nothing_prepared :
    ∃ t, Run (callStep id) noCalls [writesOne, .task (.check 0), .task (.copyFails 0)] t ∧
      t.answers[0]? = some .raised ∧ ¬ HasStored t 0 := by
  have hsome : (execOf (callStep id) openRunner noCalls
      [writesOne, .task (.check 0), .task (.copyFails 0)]).any (fun t =>
        decide (t.answers[0]? = some .raised)) = true := by decide +kernel
  obtain ⟨t, ht, hview⟩ := (Option.any_eq_true _ _).mp hsome
  have hraised := of_decide_eq_true hview
  have hok := execOf_run ht
  have hrun := hok.mono fun _ _ _ => trivial
  exact ⟨t, hrun, hraised, ((failed_writes_change_nothing hrun).mpr
    (hok.mono fun _ _ h => openRunner_ok h) 0 hraised).2⟩

end Coalestra
