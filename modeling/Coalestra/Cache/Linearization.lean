import Coalestra.Cache.Batches
import Coalestra.Lib.Simulation

/-! # The tasks of a cache and its atomic operations

`cache/memory.py`: a `set_many_if_newer` call checks under the lock and copies outside it, as often
as it must, while other calls write, read and remove. Every run of such tasks is a run of the atomic
operations: a write call takes effect as a whole when its last check commits, and every other
operation in its one critical section. -/

namespace Coalestra
set_option autoImplicit false
set_option maxHeartbeats 250000

open AsyncMemoryCache

variable {K V : Type} [DecidableEq K]

/-! ## A commit sees only the copies it stores -/

namespace AsyncMemoryCache

theorem commitOne_congr {c : AsyncMemoryCache K V} {force replaceEqual : Bool}
    {prepared other : CacheEntries K V} {v : SnapshotValue K V}
    (h : writeStatus (c.get? v.key) v force replaceEqual = .stored →
      prepared.get? v.key = other.get? v.key) :
    c.commitOne force replaceEqual prepared v = c.commitOne force replaceEqual other v := by
  unfold commitOne
  cases hstatus : writeStatus (c.get? v.key) v force replaceEqual with
  | stored => simp [hstatus, h hstatus]
  | ignoredLowerAuthority | ignoredOlder | ignoredDuplicate => simp [hstatus]

theorem commitCandidates_congr {force replaceEqual : Bool} {prepared other : CacheEntries K V} :
    ∀ {candidates : List (SnapshotValue K V)} {c : AsyncMemoryCache K V},
      (candidates.map SnapshotValue.key).Nodup → c.Prepared force replaceEqual prepared candidates →
      (∀ v ∈ candidates, writeStatus (c.get? v.key) v force replaceEqual = .stored →
        prepared.get? v.key = other.get? v.key) →
      commitCandidates force replaceEqual prepared candidates c =
        commitCandidates force replaceEqual other candidates c
  | [], c, _, _, _ => rfl
  | v :: candidates, c, hnd, hprep, h => by
      rw [List.map_cons, List.nodup_cons] at hnd
      obtain ⟨d, hd, hother, -⟩ := commitOne_spec (hprep v List.mem_cons_self)
      -- the first candidate changes no entry that a later one is compared with
      have hget : ∀ w ∈ candidates, d.get? w.key = c.get? w.key := by
        intro w hw
        refine hother _ ?_
        intro heq
        exact hnd.1 (List.mem_map.mpr ⟨w, hw, heq⟩)
      have hrest : commitCandidates force replaceEqual prepared candidates d =
          commitCandidates force replaceEqual other candidates d := by
        refine commitCandidates_congr hnd.2 ?_ ?_
        · intro w hw hs
          rw [hget w hw] at hs
          exact hprep w (List.mem_cons_of_mem _ hw) hs
        · intro w hw hs
          rw [hget w hw] at hs
          exact h w (List.mem_cons_of_mem _ hw) hs
      have hone := commitOne_congr (h v List.mem_cons_self)
      rw [commitCandidates, commitCandidates, ← hone, hd, Option.bind_some, Option.bind_some, hrest]

/-- A commit after any number of rounds does what the call does when it runs alone. -/
theorem setManyIfNewer_of_commit {copier : V → V} {c d : AsyncMemoryCache K V}
    {values : List (SnapshotValue K V)} {force replaceEqual : Bool} {prepared : CacheEntries K V}
    {results : List (K × CapturedWriteResult K V)}
    (hne : (selectCandidates values).dict.values ≠ [])
    (hcopies : CopiesOf copier (selectCandidates values) prepared)
    (hmissing : c.missingCandidates force replaceEqual prepared
      (selectCandidates values).dict.values = [])
    (hcommit : c.commitLocked force replaceEqual prepared (selectCandidates values).dict.values =
      some (results, d)) :
    c.setManyIfNewer copier values force replaceEqual = some (results, d) := by
  have hnd : ((selectCandidates values).dict.values.map SnapshotValue.key).Nodup := by
    rw [CacheEntries.map_key_values]
    exact (selectCandidates values).dict.nodup
  have hprep := prepared_of_no_missing hmissing
  -- another set of copies gives the same commit when it has the copies that are stored
  have hsame : ∀ other : CacheEntries K V,
      (∀ v ∈ (selectCandidates values).dict.values,
        writeStatus (c.get? v.key) v force replaceEqual = .stored →
          other.get? v.key = some (v.clone copier)) →
      c.commitLocked force replaceEqual other (selectCandidates values).dict.values =
        some (results, d) := by
    intro other hother
    rw [← hcommit, commitLocked, commitLocked, commitCandidates_congr hnd hprep]
    intro v hv hs
    obtain ⟨w, hw⟩ := hprep v hv hs
    obtain ⟨v', hv', rfl⟩ := hcopies _ _ hw
    rw [CacheEntries.mem_values.mp hv, Option.some.injEq] at hv'
    rw [hother v hv hs, hw, hv']
  rw [setManyIfNewer, if_neg hne, setManyRounds]
  by_cases hfirst : c.missingCandidates force replaceEqual .empty
      (selectCandidates values).dict.values = []
  · rw [if_pos hfirst]
    refine hsame .empty ?_
    intro v hv hs
    have hnot := List.filter_eq_nil_iff.mp hfirst v hv
    simp [hs] at hnot
  · rw [if_neg hfirst, setManyRounds]
    have hcopy : ∀ v ∈ (selectCandidates values).dict.values,
        writeStatus (c.get? v.key) v force replaceEqual = .stored →
          (prepareCopies copier (c.missingCandidates force replaceEqual .empty
            (selectCandidates values).dict.values) .empty).get? v.key = some (v.clone copier) := by
      intro v hv hs
      have hmem : v ∈ c.missingCandidates force replaceEqual .empty
          (selectCandidates values).dict.values := List.mem_filter.mpr ⟨hv, by simp [hs]⟩
      have hsome := prepareCopies_isSome copier _ .empty (k := v.key)
        (.inr (List.mem_map_of_mem hmem))
      obtain ⟨w, hw⟩ := Option.isSome_iff_exists.mp hsome
      obtain hempty | ⟨m, hm, hkey, rfl⟩ := prepareCopies_get? copier _ _ hw
      · simp at hempty
      · rw [hw, List.inj_on_of_nodup_map hnd (List.mem_of_mem_filter hm) hv hkey]
    have hsecond : c.missingCandidates force replaceEqual
        (prepareCopies copier (c.missingCandidates force replaceEqual .empty
          (selectCandidates values).dict.values) .empty)
        (selectCandidates values).dict.values = [] := by
      rw [missingCandidates, List.filter_eq_nil_iff]
      intro v hv hm
      rw [Bool.and_eq_true, decide_eq_true_eq] at hm
      rw [hcopy v hv hm.1] at hm
      simp at hm
    rw [if_pos hsecond]
    exact hsame _ hcopy

end AsyncMemoryCache

/-! ## Atomic operations -/

/-- `setMany` names the call it is, by number. -/
inductive CacheOperation (K V : Type)
  | setMany (call : ℕ) (values : List (SnapshotValue K V)) (force replaceEqual : Bool)
  | getMany (keys : List K) (now : ℚ) (policies : K → FreshnessPolicy)
  | invalidateMany (keys : List K)
  | invalidateMatching (predicate : K → Bool)
  | prune (now : ℚ) (policies : K → FreshnessPolicy)
  | clear

/-- A cache and what its write calls have answered so far, in order. -/
structure AtomicHistory (K V : Type) [DecidableEq K] where
  cache : AsyncMemoryCache K V
  answers : List (ℕ × List (K × CapturedWriteResult K V))

/-- One operation alone. -/
def AtomicHistory.apply (copier : V → V) (a : AtomicHistory K V) :
    CacheOperation K V → Option (AtomicHistory K V)
  | .setMany call values force replaceEqual =>
    (a.cache.setManyIfNewer copier values force replaceEqual).map fun r =>
      ⟨r.2, a.answers ++ [(call, r.1)]⟩
  | .getMany keys now policies => some ⟨(a.cache.getMany now policies keys).2, a.answers⟩
  | .invalidateMany keys => some ⟨a.cache.invalidateMany keys, a.answers⟩
  | .invalidateMatching predicate => some ⟨a.cache.invalidateMatching predicate, a.answers⟩
  | .prune now policies => some ⟨a.cache.prune now policies, a.answers⟩
  | .clear => some ⟨a.cache.clear, a.answers⟩

/-- What the write calls of a run were given, in the order in which they were called. -/
def writeCalls (es : List (CacheEvent K V)) : List (List (SnapshotValue K V) × Bool × Bool) :=
  es.filterMap fun e => match e with
    | .call values force replaceEqual => some (values, force, replaceEqual)
    | _ => none

/-- The operation that takes effect with an event: of the checks, only one that commits. -/
def operationOf (calls : List (List (SnapshotValue K V) × Bool × Bool)) (s : CacheTasks K V) :
    CacheEvent K V → Option (CacheOperation K V)
  | .check w =>
    match s.writers[w]?, calls[w]? with
    | some writer, some call =>
      match writer.phase with
      | .checking prepared =>
        if s.cache.missingCandidates writer.force writer.replaceEqual prepared
            writer.candidateList = [] then some (.setMany w call.1 call.2.1 call.2.2)
        else none
      | _ => none
    | _, _ => none
  | .getMany keys now policies => some (.getMany keys now policies)
  | .invalidateMany keys => some (.invalidateMany keys)
  | .invalidateMatching predicate => some (.invalidateMatching predicate)
  | .prune now policies => some (.prune now policies)
  | .clear => some .clear
  | .call _ _ _ | .prepared _ | .copyFails _ => none

/-! ## The simulation -/

/-- Calls are numbered in the order in which they are made. -/
def CalledAs (calls : List (List (SnapshotValue K V) × Bool × Bool)) (s : CacheTasks K V) :
    CacheEvent K V → Prop
  | .call values force replaceEqual =>
    calls[s.writers.length]? = some (values, force, replaceEqual)
  | _ => True

/-- The atomic cache is the cache of the tasks, and its answers are what the calls that have
committed return. A call without candidates returns before it looks at the cache. -/
structure Linearizes (copier : V → V) (calls : List (List (SnapshotValue K V) × Bool × Bool))
    (s : CacheTasks K V) (a : AtomicHistory K V) : Prop where
  cache : a.cache = s.cache
  sound : s.Sound copier
  made : ∀ (w : ℕ) writer, s.writers[w]? = some writer → ∃ values,
    calls[w]? = some (values, writer.force, writer.replaceEqual) ∧
      writer.candidates = selectCandidates values
  pending : ∀ (w : ℕ) writer, s.writers[w]? = some writer → writer.candidateList = [] →
    writer.phase = .committed []
  answered : ∀ w results, (w, results) ∈ a.answers ↔ ∃ writer : Writer K V,
    s.writers[w]? = some writer ∧ writer.phase = .committed results ∧ writer.candidateList ≠ []
  once : (a.answers.map Prod.fst).Nodup

section
variable {copier : V → V} {calls : List (List (SnapshotValue K V) × Bool × Bool)}
  {s t : CacheTasks K V} {a : AtomicHistory K V}

theorem linearizes_new (cache : AsyncMemoryCache K V) :
    Linearizes copier calls ⟨cache, []⟩ ⟨cache, []⟩ :=
  ⟨rfl, by intro w writer hw; simp at hw, by simp, by simp, by simp, by simp⟩

/-- An operation without a write call: the calls stay where they are. -/
theorem Linearizes.removal (h : Linearizes copier calls s a) (cache : AsyncMemoryCache K V) :
    Linearizes copier calls ⟨cache, s.writers⟩ ⟨cache, a.answers⟩ :=
  ⟨rfl, h.sound, h.made, h.pending, h.answered, h.once⟩

theorem Linearizes.call (h : Linearizes copier calls s a) {values : List (SnapshotValue K V)}
    {force replaceEqual : Bool}
    (hcall : calls[s.writers.length]? = some (values, force, replaceEqual))
    (hsound : (⟨s.cache, s.writers ++ [startWriter values force replaceEqual]⟩ :
      CacheTasks K V).Sound copier) :
    Linearizes copier calls ⟨s.cache, s.writers ++ [startWriter values force replaceEqual]⟩ a := by
  -- a call that is new has either no candidates or no results
  have hcases : ∀ (w : ℕ) writer,
      (s.writers ++ [startWriter values force replaceEqual])[w]? = some writer →
        s.writers[w]? = some writer ∨
          w = s.writers.length ∧ writer = startWriter values force replaceEqual := by
    intro w writer hw
    rw [List.getElem?_append] at hw
    split at hw
    · exact .inl hw
    · rename_i hlen
      rw [List.getElem?_singleton] at hw
      split at hw
      · rename_i hzero
        rw [Option.some.injEq] at hw
        exact .inr ⟨by omega, hw.symm⟩
      · simp at hw
  have hkeep : ∀ (w : ℕ) writer, s.writers[w]? = some writer →
      (s.writers ++ [startWriter values force replaceEqual])[w]? = some writer := by
    intro w writer hw
    rw [List.getElem?_append_left (List.getElem?_eq_some_iff.mp hw).1]
    exact hw
  have hstart : (startWriter values force replaceEqual).candidateList = [] →
      (startWriter values force replaceEqual).phase = .committed [] := by
    intro hnil
    simp only [startWriter, Writer.candidateList] at hnil ⊢
    rw [if_pos hnil]
  refine ⟨h.cache, hsound, ?_, ?_, ?_, h.once⟩
  · intro w writer hw
    obtain hold | ⟨rfl, rfl⟩ := hcases w writer hw
    · exact h.made w writer hold
    · exact ⟨values, hcall, rfl⟩
  · intro w writer hw hnil
    obtain hold | ⟨rfl, rfl⟩ := hcases w writer hw
    · exact h.pending w writer hold hnil
    · exact hstart hnil
  · intro w results
    rw [h.answered]
    constructor
    · rintro ⟨writer, hw, hphase, hne⟩
      exact ⟨writer, hkeep w writer hw, hphase, hne⟩
    · rintro ⟨writer, hw, hphase, hne⟩
      obtain hold | ⟨rfl, rfl⟩ := hcases w writer hw
      · exact ⟨writer, hold, hphase, hne⟩
      · simp only [startWriter, Writer.candidateList] at hphase hne
        rw [if_neg hne] at hphase
        cases hphase

/-- A call that does not end here. -/
theorem Linearizes.rephase (h : Linearizes copier calls s a) {w : ℕ} {writer : Writer K V}
    {phase : WriterPhase K V} (hw : s.writers[w]? = some writer)
    (hold : ∀ results, writer.phase ≠ .committed results)
    (hnew : ∀ results, phase ≠ .committed results)
    (hsound : (setPhase s w writer phase s.cache).Sound copier) :
    Linearizes copier calls (setPhase s w writer phase s.cache) a := by
  refine ⟨h.cache, hsound, ?_, ?_, ?_, h.once⟩
  · intro i writer' hi
    rw [setPhase_get? hw] at hi
    split at hi
    · rename_i hiw
      rw [Option.some.injEq] at hi
      subst hi
      rw [hiw]
      exact h.made w writer hw
    · exact h.made i writer' hi
  · intro i writer' hi hnil
    rw [setPhase_get? hw] at hi
    split at hi
    · rw [Option.some.injEq] at hi
      subst hi
      exact absurd (h.pending w writer hw hnil) (hold [])
    · exact h.pending i writer' hi hnil
  · intro i results
    rw [h.answered, setPhase_get? hw]
    split
    · rename_i hiw
      rw [hiw, hw]
      constructor
      · rintro ⟨writer', hwriter, hphase, -⟩
        rw [Option.some.injEq] at hwriter
        subst hwriter
        exact absurd hphase (hold results)
      · rintro ⟨writer', hwriter, hphase, -⟩
        rw [Option.some.injEq] at hwriter
        subst hwriter
        exact absurd hphase (hnew results)
    · rfl

/-- A call that commits: its operation, alone, gives the same answer and the same cache. -/
theorem Linearizes.commit (h : Linearizes copier calls s a) {w : ℕ} {writer : Writer K V}
    {values : List (SnapshotValue K V)} {prepared : CacheEntries K V}
    {results : List (K × CapturedWriteResult K V)} {cache : AsyncMemoryCache K V}
    (hw : s.writers[w]? = some writer) (hphase : writer.phase = .checking prepared)
    (hmissing : s.cache.missingCandidates writer.force writer.replaceEqual prepared
      writer.candidateList = [])
    (hcommit : s.cache.commitLocked writer.force writer.replaceEqual prepared
      writer.candidateList = some (results, cache))
    (hcandidates : writer.candidates = selectCandidates values)
    (hsound : (setPhase s w writer (.committed results) cache).Sound copier) :
    s.cache.setManyIfNewer copier values writer.force writer.replaceEqual =
      some (results, cache) ∧
    Linearizes copier calls (setPhase s w writer (.committed results) cache)
      ⟨cache, a.answers ++ [(w, results)]⟩ := by
  have hne : writer.candidateList ≠ [] := by
    intro hnil
    rw [h.pending w writer hw hnil] at hphase
    cases hphase
  have hunanswered : ∀ results', (w, results') ∉ a.answers := by
    intro results' hmem
    obtain ⟨writer', hw', hphase', -⟩ := (h.answered w results').mp hmem
    rw [hw, Option.some.injEq] at hw'
    rw [← hw', hphase] at hphase'
    cases hphase'
  have hcopies : CopiesOf copier writer.candidates prepared := by
    have hwriter := h.sound w writer hw
    unfold Writer.Sound at hwriter
    rw [hphase] at hwriter
    exact hwriter
  refine ⟨?_, rfl, hsound, ?_, ?_, ?_, ?_⟩
  · rw [hcandidates] at hcopies
    simp only [Writer.candidateList, hcandidates] at hne hmissing hcommit
    exact setManyIfNewer_of_commit hne hcopies hmissing hcommit
  · intro i writer' hi
    rw [setPhase_get? hw] at hi
    split at hi
    · rename_i hiw
      rw [Option.some.injEq] at hi
      subst hi
      rw [hiw]
      exact h.made w writer hw
    · exact h.made i writer' hi
  · intro i writer' hi hnil
    rw [setPhase_get? hw] at hi
    split at hi
    · rw [Option.some.injEq] at hi
      subst hi
      exact absurd hnil hne
    · exact h.pending i writer' hi hnil
  · intro i results'
    rw [List.mem_append, List.mem_singleton, h.answered, setPhase_get? hw]
    by_cases hiw : i = w
    · subst hiw
      constructor
      · rintro (⟨writer', hwriter, hphase', -⟩ | heq)
        · rw [hw, Option.some.injEq] at hwriter
          rw [← hwriter, hphase] at hphase'
          cases hphase'
        · rw [Prod.mk.injEq] at heq
          exact ⟨_, if_pos rfl, by rw [heq.2], hne⟩
      · rintro ⟨writer', hwriter, hphase', -⟩
        rw [if_pos rfl, Option.some.injEq] at hwriter
        subst hwriter
        simp only [WriterPhase.committed.injEq] at hphase'
        exact .inr (by rw [hphase'])
    · simp [hiw]
  · rw [List.map_append, List.map_singleton, List.nodup_append]
    refine ⟨h.once, List.nodup_singleton w, ?_⟩
    intro i hi j hj heq
    rw [List.mem_singleton] at hj
    rw [List.mem_map] at hi
    obtain ⟨⟨i', results'⟩, hmem, hi'⟩ := hi
    simp only at hi'
    rw [hi', heq, hj] at hmem
    exact hunanswered results' hmem

/-- One event of the tasks is one operation, or none. -/
theorem Linearizes.step {e : CacheEvent K V} (h : Linearizes copier calls s a)
    (hcall : CalledAs calls s e) (hs : cacheStep copier s e = some t) :
    ∃ b, runOps (AtomicHistory.apply copier) a (operationOf calls s e).toList = some b ∧
      Linearizes copier calls t b := by
  have hsound := sound_step h.sound hs
  cases e with
  | call values force replaceEqual =>
    simp only [cacheStep, Option.some.injEq] at hs
    subst hs
    exact ⟨a, rfl, h.call hcall hsound⟩
  | check w =>
    cases cacheStep_cases hs with
    | commit w writer prepared results cache hw hphase hmissing hcommit ht =>
      subst ht
      obtain ⟨values, hvalues, hcandidates⟩ := h.made w writer hw
      obtain ⟨halone, hnext⟩ := h.commit hw hphase hmissing hcommit hcandidates hsound
      refine ⟨_, ?_, hnext⟩
      simp only [operationOf, hw, hvalues, hphase, hmissing, if_true, Option.toList_some, runOps,
        AtomicHistory.apply, h.cache, halone, Option.map_some, Option.bind_some]
    | recheck w writer prepared missing hw hphase hne hmissing ht =>
      subst ht
      obtain ⟨values, hvalues, -⟩ := h.made w writer hw
      refine ⟨a, ?_, h.rephase hw ?_ ?_ hsound⟩
      · rw [hmissing] at hne
        simp only [operationOf, hw, hvalues, hphase, hne, if_false, Option.toList_none, runOps]
      · simp [hphase]
      · simp
    | removal _ hchecks _ _ =>
      have hself := hchecks w
      simp [CacheEvent.checks] at hself
  | prepared w =>
    simp only [cacheStep] at hs
    split at hs
    · rename_i writer hw
      split at hs
      · rename_i missing prepared hphase
        rw [Option.some.injEq] at hs
        subst hs
        exact ⟨a, rfl, h.rephase hw (by simp [hphase]) (by simp) hsound⟩
      · simp at hs
    · simp at hs
  | copyFails w =>
    simp only [cacheStep] at hs
    split at hs
    · rename_i writer hw
      split at hs
      · rename_i missing prepared hphase
        rw [Option.some.injEq] at hs
        subst hs
        exact ⟨a, rfl, h.rephase hw (by simp [hphase]) (by simp) hsound⟩
      · simp at hs
    · simp at hs
  | getMany keys now policies =>
    simp only [cacheStep, Option.some.injEq] at hs
    subst hs
    refine ⟨⟨(s.cache.getMany now policies keys).2, a.answers⟩, ?_, h.removal _⟩
    simp [operationOf, runOps, AtomicHistory.apply, h.cache]
  | invalidateMany keys =>
    simp only [cacheStep, Option.some.injEq] at hs
    subst hs
    refine ⟨⟨s.cache.invalidateMany keys, a.answers⟩, ?_, h.removal _⟩
    simp [operationOf, runOps, AtomicHistory.apply, h.cache]
  | invalidateMatching predicate =>
    simp only [cacheStep, Option.some.injEq] at hs
    subst hs
    refine ⟨⟨s.cache.invalidateMatching predicate, a.answers⟩, ?_, h.removal _⟩
    simp [operationOf, runOps, AtomicHistory.apply, h.cache]
  | prune now policies =>
    simp only [cacheStep, Option.some.injEq] at hs
    subst hs
    refine ⟨⟨s.cache.prune now policies, a.answers⟩, ?_, h.removal _⟩
    simp [operationOf, runOps, AtomicHistory.apply, h.cache]
  | clear =>
    simp only [cacheStep, Option.some.injEq] at hs
    subst hs
    refine ⟨⟨s.cache.clear, a.answers⟩, ?_, h.removal _⟩
    simp [operationOf, runOps, AtomicHistory.apply, h.cache]

/-! ## Every run -/

omit [DecidableEq K] in
theorem writeCalls_append (es fs : List (CacheEvent K V)) :
    writeCalls (es ++ fs) = writeCalls es ++ writeCalls fs := List.filterMap_append

theorem cacheStep_length {e : CacheEvent K V} (hs : cacheStep copier s e = some t) :
    t.writers.length = s.writers.length + (writeCalls [e]).length := by
  cases e with
  | call | getMany | invalidateMany | invalidateMatching | prune | clear =>
    simp only [cacheStep, Option.some.injEq] at hs
    simp [← hs, writeCalls]
  | check w =>
    simp only [cacheStep] at hs
    split at hs
    · split at hs
      · rw [Option.map_eq_some_iff] at hs
        obtain ⟨r, -, rfl⟩ := hs
        simp [setPhase, writeCalls]
      · simp at hs
    · simp at hs
  | prepared w | copyFails w =>
    simp only [cacheStep] at hs
    split at hs
    · split at hs
      · rw [Option.some.injEq] at hs
        simp [← hs, setPhase, writeCalls]
      · simp at hs
    · simp at hs

/-- In a run the calls are made in the order in which they are listed. -/
theorem run_calledAs {before es : List (CacheEvent K V)} (hrun : Run (cacheStep copier) s es t)
    (hlength : s.writers.length = (writeCalls before).length) :
    RunOf (cacheStep copier) (CalledAs (writeCalls (before ++ es))) s es t := by
  induction hrun generalizing before with
  | nil s => exact .nil s
  | @cons s u t e es _ hs _ ih =>
    have hcall : CalledAs (writeCalls (before ++ e :: es)) s e := by
      cases e with
      | call values force replaceEqual =>
        simp [CalledAs, hlength, writeCalls]
      | check | prepared | copyFails | getMany | invalidateMany | invalidateMatching | prune
      | clear => trivial
    have hnext : u.writers.length = (writeCalls (before ++ [e])).length := by
      rw [writeCalls_append, List.length_append, ← hlength]
      exact cacheStep_length hs
    have hrest := ih hnext
    rw [List.append_assoc, List.singleton_append] at hrest
    exact .cons hcall hs hrest

/-- The cache is linearizable. Whatever write calls, reads and removals run side by side, there is
one sequence of atomic operations that gives the same cache (its entries in their order, and every
counter): each read and removal in its place, and each write call that committed once, as a whole,
with what it was called with and with the answer it returns. Whatever took effect in the first part
of a run comes first, so that the sequence keeps the order of calls that do not overlap. -/
theorem cache_linearizable (copier : V → V) (cache : AsyncMemoryCache K V)
    {es : List (CacheEvent K V)} (hrun : Run (cacheStep copier) ⟨cache, []⟩ es s) :
    ∃ answers, runOps (AtomicHistory.apply copier) ⟨cache, []⟩
        (opsAlong (cacheStep copier) (operationOf (writeCalls es)) ⟨cache, []⟩ es) =
          some ⟨s.cache, answers⟩ ∧
      (answers.map Prod.fst).Nodup ∧
      (∀ w results, (w, results) ∈ answers ↔ ∃ writer : Writer K V, s.writers[w]? = some writer ∧
        writer.phase = .committed results ∧ writer.candidateList ≠ []) ∧
      (∀ (w : ℕ) writer, s.writers[w]? = some writer → ∃ values,
        (writeCalls es)[w]? = some (values, writer.force, writer.replaceEqual) ∧
          writer.candidates = selectCandidates values) ∧
      ∀ before after mid, es = before ++ after → Run (cacheStep copier) ⟨cache, []⟩ before mid →
        opsAlong (cacheStep copier) (operationOf (writeCalls es)) ⟨cache, []⟩ es =
          opsAlong (cacheStep copier) (operationOf (writeCalls es)) ⟨cache, []⟩ before ++
            opsAlong (cacheStep copier) (operationOf (writeCalls es)) mid after := by
  have hcalled : RunOf (cacheStep copier) (CalledAs (writeCalls ([] ++ es))) ⟨cache, []⟩ es s :=
    run_calledAs hrun rfl
  rw [List.nil_append] at hcalled
  obtain ⟨a, ha, hlinear⟩ := hcalled.simulates (Linearizes copier (writeCalls es))
    (fun _ _ _ _ hcall h hs => h.step hcall hs) (linearizes_new cache)
  refine ⟨a.answers, ?_, hlinear.once, hlinear.answered, hlinear.made, ?_⟩
  · rw [ha, ← hlinear.cache]
  · intro before after mid hes hbefore
    rw [← opsAlong_append hbefore, ← hes]

end

/-- The second call commits first, and the first one then finds its value ignored. -/
theorem cache_linearizable_race : ∃ (s : CacheTasks ℕ ℕ)
    (answers : List (ℕ × List (ℕ × CapturedWriteResult ℕ ℕ))),
    exec (cacheStep id) ⟨AsyncMemoryCache.new none (by simp), []⟩ raceOfTwoWriters = some s ∧
      runOps (AtomicHistory.apply id) ⟨AsyncMemoryCache.new none (by simp), []⟩
        (opsAlong (cacheStep id) (operationOf (writeCalls raceOfTwoWriters))
          ⟨AsyncMemoryCache.new none (by simp), []⟩ raceOfTwoWriters) = some ⟨s.cache, answers⟩ ∧
      (answers.map Prod.fst).Nodup := by
  have hsome : (exec (cacheStep id) ⟨AsyncMemoryCache.new none (by simp), []⟩
      raceOfTwoWriters).isSome = true := by decide +kernel
  obtain ⟨s, hs⟩ := Option.isSome_iff_exists.mp hsome
  obtain ⟨answers, hrun, honce, -⟩ := cache_linearizable id _ (exec_run hs)
  exact ⟨s, answers, hs, hrun, honce⟩

end Coalestra
