import Mathlib.Tactic.Linarith
import Coalestra.Cache.Memory
import Coalestra.Lib.Runs

/-! # Interleaved cache tasks

Any number of `set_many_if_newer` calls run beside reads and removals. A write call alternates
between check rounds under the lock and payload copies outside it; every other operation is one
critical section. The module shows what holds across every interleaving: stored stamps only grow
between two removals, a call compares its whole batch with the entries of one commit point, and it
gets there within one round per candidate and one more. -/

namespace Coalestra
set_option autoImplicit false
set_option maxHeartbeats 250000

open AsyncMemoryCache

/-! ## Tasks -/

/-- Where a `set_many_if_newer` call stands between two awaits. -/
inductive WriterPhase (K V : Type) [DecidableEq K]
  | checking (prepared : CacheEntries K V)
  | preparing (missing : List (SnapshotValue K V)) (prepared : CacheEntries K V)
  | committed (results : List (K × CapturedWriteResult K V))
  | failed

/-- One `set_many_if_newer` call. -/
structure Writer (K V : Type) [DecidableEq K] where
  candidates : CacheEntries K V
  force : Bool
  replaceEqual : Bool
  phase : WriterPhase K V

/-- The cache and the write calls in progress. -/
structure CacheTasks (K V : Type) [DecidableEq K] where
  cache : AsyncMemoryCache K V
  writers : List (Writer K V)

/-- The atomic steps of the tasks. -/
inductive CacheEvent (K V : Type)
  | call (values : List (SnapshotValue K V)) (force replaceEqual : Bool)
  | check (w : ℕ)
  | prepared (w : ℕ)
  | copyFails (w : ℕ)
  | getMany (keys : List K) (now : ℚ) (policies : K → FreshnessPolicy)
  | invalidateMany (keys : List K)
  | invalidateMatching (predicate : K → Bool)
  | prune (now : ℚ) (policies : K → FreshnessPolicy)
  | clear

/-- `force=False` on every write call. -/
def CacheEvent.Unforced {K V : Type} : CacheEvent K V → Prop
  | .call _ force _ => force = false
  | _ => True

def CacheEvent.checks {K V : Type} (w : ℕ) : CacheEvent K V → Bool
  | .check i => decide (i = w)
  | _ => false

section
variable {K V : Type} [DecidableEq K]

def Writer.candidateList (w : Writer K V) : List (SnapshotValue K V) := w.candidates.dict.values

def startWriter (values : List (SnapshotValue K V)) (force replaceEqual : Bool) : Writer K V :=
  let candidates := selectCandidates values
  ⟨candidates, force, replaceEqual,
    if candidates.dict.values = [] then .committed [] else .checking .empty⟩

/-- One check round under the lock: it commits, or it names the copies still to prepare. -/
def checkRound (cache : AsyncMemoryCache K V) (w : Writer K V) (prepared : CacheEntries K V) :
    Option (WriterPhase K V × AsyncMemoryCache K V) :=
  let missing := cache.missingCandidates w.force w.replaceEqual prepared w.candidateList
  if missing = [] then
    (cache.commitLocked w.force w.replaceEqual prepared w.candidateList).map fun result =>
      (.committed result.1, result.2)
  else some (.preparing missing prepared, cache)

def prepareCopies (copier : V → V) (missing : List (SnapshotValue K V))
    (prepared : CacheEntries K V) : CacheEntries K V :=
  missing.foldl (fun e v => e.put (v.clone copier)) prepared

def setPhase (s : CacheTasks K V) (w : ℕ) (writer : Writer K V) (phase : WriterPhase K V)
    (cache : AsyncMemoryCache K V) : CacheTasks K V :=
  ⟨cache, s.writers.set w { writer with phase := phase }⟩

def cacheStep (copier : V → V) (s : CacheTasks K V) : CacheEvent K V → Option (CacheTasks K V)
  | .call values force replaceEqual =>
    some ⟨s.cache, s.writers ++ [startWriter values force replaceEqual]⟩
  | .check w =>
    match s.writers[w]? with
    | some writer =>
      match writer.phase with
      | .checking prepared =>
        (checkRound s.cache writer prepared).map fun r => setPhase s w writer r.1 r.2
      | _ => none
    | none => none
  | .prepared w =>
    match s.writers[w]? with
    | some writer =>
      match writer.phase with
      | .preparing missing prepared =>
        some (setPhase s w writer (.checking (prepareCopies copier missing prepared)) s.cache)
      | _ => none
    | none => none
  | .copyFails w =>
    match s.writers[w]? with
    | some writer =>
      match writer.phase with
      | .preparing _ _ => some (setPhase s w writer .failed s.cache)
      | _ => none
    | none => none
  | .getMany keys now policies => some ⟨(s.cache.getMany now policies keys).2, s.writers⟩
  | .invalidateMany keys => some ⟨s.cache.invalidateMany keys, s.writers⟩
  | .invalidateMatching predicate => some ⟨s.cache.invalidateMatching predicate, s.writers⟩
  | .prune now policies => some ⟨s.cache.prune now policies, s.writers⟩
  | .clear => some ⟨s.cache.clear, s.writers⟩

/-! ## What a step can do -/

/-- A step either runs one phase of one write call, or starts a call, or only removes entries. -/
inductive CacheChange (copier : V → V) (s t : CacheTasks K V) : CacheEvent K V → Prop
  | call (values : List (SnapshotValue K V)) (force replaceEqual : Bool) :
      t = ⟨s.cache, s.writers ++ [startWriter values force replaceEqual]⟩ →
      CacheChange copier s t (.call values force replaceEqual)
  | commit (w : ℕ) (writer : Writer K V) (prepared : CacheEntries K V)
      (results : List (K × CapturedWriteResult K V)) (cache : AsyncMemoryCache K V) :
      s.writers[w]? = some writer → writer.phase = .checking prepared →
      s.cache.missingCandidates writer.force writer.replaceEqual prepared
        writer.candidateList = [] →
      s.cache.commitLocked writer.force writer.replaceEqual prepared writer.candidateList =
        some (results, cache) →
      t = setPhase s w writer (.committed results) cache →
      CacheChange copier s t (.check w)
  | recheck (w : ℕ) (writer : Writer K V) (prepared : CacheEntries K V)
      (missing : List (SnapshotValue K V)) :
      s.writers[w]? = some writer → writer.phase = .checking prepared → missing ≠ [] →
      missing = s.cache.missingCandidates writer.force writer.replaceEqual prepared
        writer.candidateList →
      t = setPhase s w writer (.preparing missing prepared) s.cache →
      CacheChange copier s t (.check w)
  | prepared (w : ℕ) (writer : Writer K V) (missing : List (SnapshotValue K V))
      (prepared : CacheEntries K V) :
      s.writers[w]? = some writer → writer.phase = .preparing missing prepared →
      t = setPhase s w writer (.checking (prepareCopies copier missing prepared)) s.cache →
      CacheChange copier s t (.prepared w)
  | copyFails (w : ℕ) (writer : Writer K V) (missing : List (SnapshotValue K V))
      (prepared : CacheEntries K V) :
      s.writers[w]? = some writer → writer.phase = .preparing missing prepared →
      t = setPhase s w writer .failed s.cache → CacheChange copier s t (.copyFails w)
  | removal (e : CacheEvent K V) : (∀ w, e.checks w = false) → t.writers = s.writers →
      t.cache.entries.Within s.cache.entries → CacheChange copier s t e

theorem cacheStep_cases {copier : V → V} {s t : CacheTasks K V} {e : CacheEvent K V}
    (h : cacheStep copier s e = some t) : CacheChange copier s t e := by
  cases e with
  | call values force replaceEqual =>
    exact .call values force replaceEqual (by simpa [cacheStep] using h.symm)
  | check w =>
    simp only [cacheStep] at h
    split at h
    · rename_i writer hw
      split at h
      · rename_i prepared hphase
        simp only [checkRound] at h
        split at h
        · rename_i hmissing
          simp only [Option.map_map, Option.map_eq_some_iff] at h
          obtain ⟨⟨results, cache⟩, hcommit, rfl⟩ := h
          exact .commit w writer prepared results cache hw hphase hmissing hcommit rfl
        · rename_i hmissing
          simp only [Option.map_some, Option.some.injEq] at h
          exact .recheck w writer prepared _ hw hphase hmissing rfl h.symm
      · cases h
    · cases h
  | prepared w =>
    simp only [cacheStep] at h
    split at h
    · rename_i writer hw
      split at h
      · rename_i missing prepared hphase
        exact .prepared w writer missing prepared hw hphase (by simpa using h.symm)
      · cases h
    · cases h
  | copyFails w =>
    simp only [cacheStep] at h
    split at h
    · rename_i writer hw
      split at h
      · rename_i missing prepared hphase
        exact .copyFails w writer missing prepared hw hphase (by simpa using h.symm)
      · cases h
    · cases h
  | getMany keys now policies =>
    simp only [cacheStep, Option.some.injEq] at h
    subst h
    exact .removal _ (fun _ => rfl) rfl (getManyLocked_within _ _ _ _)
  | invalidateMany keys =>
    simp only [cacheStep, Option.some.injEq] at h
    subst h
    exact .removal _ (fun _ => rfl) rfl (CacheEntries.keep_within _ _)
  | invalidateMatching predicate =>
    simp only [cacheStep, Option.some.injEq] at h
    subst h
    exact .removal _ (fun _ => rfl) rfl (CacheEntries.keep_within _ _)
  | prune now policies =>
    simp only [cacheStep, Option.some.injEq] at h
    subst h
    exact .removal _ (fun _ => rfl) rfl (CacheEntries.keep_within _ _)
  | clear =>
    simp only [cacheStep, Option.some.injEq] at h
    subst h
    exact .removal _ (fun _ => rfl) rfl (fun k v hk => by simp [clear] at hk)

/-! ## Prepared copies -/

omit [DecidableEq K] in
theorem clone_key (copier : V → V) (v : SnapshotValue K V) : (v.clone copier).key = v.key := rfl

omit [DecidableEq K] in
theorem stamp_clone (copier : V → V) (v : SnapshotValue K V) :
    stamp (v.clone copier) = stamp v := rfl

/-- A prepared copy is the copy of the candidate selected for its key. -/
def CopiesOf (copier : V → V) (candidates prepared : CacheEntries K V) : Prop :=
  ∀ k v, prepared.get? k = some v → ∃ c, candidates.get? k = some c ∧ v = c.clone copier

/-- What the phase of a write call says about its candidates. -/
def Writer.Sound (copier : V → V) (w : Writer K V) : Prop :=
  match w.phase with
  | .checking prepared => CopiesOf copier w.candidates prepared
  | .preparing missing prepared => CopiesOf copier w.candidates prepared ∧ missing ≠ [] ∧
      ∀ m ∈ missing, m ∈ w.candidateList ∧ prepared.get? m.key = none
  | _ => True

theorem prepareCopies_get? (copier : V → V) : ∀ (missing : List (SnapshotValue K V))
    (prepared : CacheEntries K V) {k : K} {v : SnapshotValue K V},
    (prepareCopies copier missing prepared).get? k = some v →
      prepared.get? k = some v ∨ ∃ m ∈ missing, m.key = k ∧ v = m.clone copier
  | [], prepared, k, v, h => .inl h
  | m :: missing, prepared, k, v, h => by
      rw [prepareCopies, List.foldl_cons] at h
      rcases prepareCopies_get? copier missing _ h with h | ⟨m', hm', hk, hv⟩
      · rw [CacheEntries.get?_put, clone_key] at h
        by_cases e : k = m.key
        · rw [if_pos e, Option.some.injEq] at h
          exact .inr ⟨m, List.mem_cons_self, e.symm, h.symm⟩
        · rw [if_neg e] at h
          exact .inl h
      · exact .inr ⟨m', List.mem_cons_of_mem _ hm', hk, hv⟩

theorem prepareCopies_isSome (copier : V → V) : ∀ (missing : List (SnapshotValue K V))
    (prepared : CacheEntries K V) {k : K},
    (prepared.get? k).isSome ∨ k ∈ missing.map SnapshotValue.key →
      ((prepareCopies copier missing prepared).get? k).isSome
  | [], prepared, k, h => by simpa [prepareCopies] using h
  | m :: missing, prepared, k, h => by
      rw [prepareCopies, List.foldl_cons]
      refine prepareCopies_isSome copier missing _ ?_
      rw [CacheEntries.get?_put, clone_key]
      by_cases e : k = m.key
      · simp [e]
      · rw [if_neg e]
        simpa [e] using h

theorem copiesOf_prepareCopies {copier : V → V} {candidates prepared : CacheEntries K V}
    {missing : List (SnapshotValue K V)} (h : CopiesOf copier candidates prepared)
    (hm : ∀ m ∈ missing, m ∈ candidates.dict.values) :
    CopiesOf copier candidates (prepareCopies copier missing prepared) := by
  intro k v hv
  rcases prepareCopies_get? copier missing prepared hv with hv | ⟨m, hmem, rfl, rfl⟩
  · exact h k v hv
  · exact ⟨m, CacheEntries.mem_values.mp (hm m hmem), rfl⟩

theorem startWriter_sound (copier : V → V) (values : List (SnapshotValue K V))
    (force replaceEqual : Bool) : (startWriter values force replaceEqual).Sound copier := by
  unfold startWriter Writer.Sound
  by_cases h : (selectCandidates values).dict.values = []
  · simp [h]
  · simp [h, CopiesOf]

/-- Every write call in progress is sound. -/
def CacheTasks.Sound (copier : V → V) (s : CacheTasks K V) : Prop :=
  ∀ (w : ℕ) (writer : Writer K V), s.writers[w]? = some writer → writer.Sound copier

theorem setPhase_get? {s : CacheTasks K V} {w : ℕ} {writer : Writer K V} {phase : WriterPhase K V}
    {cache : AsyncMemoryCache K V} (hw : s.writers[w]? = some writer) (i : ℕ) :
    (setPhase s w writer phase cache).writers[i]? =
      if i = w then some { writer with phase := phase } else s.writers[i]? := by
  rw [setPhase, List.getElem?_set]
  have hlt : w < s.writers.length := (List.getElem?_eq_some_iff.mp hw).1
  by_cases h : w = i
  · simp [h, h ▸ hlt]
  · have h' : ¬ i = w := fun e => h e.symm
    simp [h, h']

theorem setPhase_absent {s : CacheTasks K V} {w i : ℕ} {writer : Writer K V}
    {phase : WriterPhase K V} {cache : AsyncMemoryCache K V} (hi : s.writers[i]? = some writer)
    (hw : s.writers[w]? = none) : (setPhase s i writer phase cache).writers[w]? = none := by
  rw [setPhase_get? hi, if_neg, hw]
  intro e
  rw [e, hi] at hw
  cases hw

theorem sound_setPhase {copier : V → V} {s : CacheTasks K V} {w : ℕ} {writer : Writer K V}
    {phase : WriterPhase K V} {cache : AsyncMemoryCache K V} (hs : s.Sound copier)
    (hw : s.writers[w]? = some writer)
    (hp : ({ writer with phase := phase } : Writer K V).Sound copier) :
    (setPhase s w writer phase cache).Sound copier := by
  intro i writer' hi
  rw [setPhase_get? hw] at hi
  by_cases h : i = w
  · rw [if_pos h, Option.some.injEq] at hi
    rw [← hi]
    exact hp
  · rw [if_neg h] at hi
    exact hs i writer' hi

theorem sound_step {copier : V → V} {s t : CacheTasks K V} {e : CacheEvent K V}
    (hs : s.Sound copier) (h : cacheStep copier s e = some t) : t.Sound copier := by
  cases cacheStep_cases h with
  | call values force replaceEqual ht =>
    subst ht
    intro i writer hi
    simp only [List.getElem?_append] at hi
    split at hi
    · exact hs i writer hi
    · rw [List.getElem?_singleton] at hi
      split at hi
      · rw [Option.some.injEq] at hi
        rw [← hi]
        exact startWriter_sound copier values force replaceEqual
      · cases hi
  | commit w writer prepared results cache hw hphase hmiss hcommit ht =>
    subst ht
    exact sound_setPhase hs hw trivial
  | recheck w writer prepared missing hw hphase hne hmiss ht =>
    subst ht
    have hold := hs w writer hw
    unfold Writer.Sound at hold
    rw [hphase] at hold
    refine sound_setPhase hs hw ⟨hold, hne, fun m hm => ?_⟩
    rw [hmiss, missingCandidates, List.mem_filter, Bool.and_eq_true, Option.isNone_iff_eq_none]
      at hm
    exact ⟨hm.1, hm.2.2⟩
  | prepared w writer missing prepared hw hphase ht =>
    subst ht
    have hold := hs w writer hw
    unfold Writer.Sound at hold
    rw [hphase] at hold
    exact sound_setPhase hs hw (copiesOf_prepareCopies hold.1 fun m hm => (hold.2.2 m hm).1)
  | copyFails w writer missing prepared hw hphase ht =>
    subst ht
    exact sound_setPhase hs hw trivial
  | removal _ _ hwriters _ =>
    intro i writer hi
    rw [hwriters] at hi
    exact hs i writer hi

/-! ## The commit point -/

def WriterPhase.results : WriterPhase K V → Option (List (K × CapturedWriteResult K V))
  | .committed results => some results
  | _ => none

/-- What the commit point of a write call does to the cache and reports to the caller. -/
structure CommitPoint (before after : AsyncMemoryCache K V) (w : Writer K V)
    (results : List (K × CapturedWriteResult K V)) : Prop where
  reported : results.map Prod.fst = w.candidates.dict.keys
  compared : ∀ k r, (k, r) ∈ results → ∃ v, w.candidates.get? k = some v ∧
    r.status = writeStatus (before.get? k) v w.force w.replaceEqual ∧ r.previous = before.get? k
  ignored : ∀ k r, (k, r) ∈ results → r.status ≠ .stored → r.previous = some r.value
  ordered : w.force = false → ∀ k r p, (k, r) ∈ results → r.previous = some p →
    stamp p ≤ stamp r.value
  grows : w.force = false → w.replaceEqual = false → ∀ k r p, (k, r) ∈ results →
    r.status = .stored → r.previous = some p → stamp p < stamp r.value
  replaced : ∀ k r q, (k, r) ∈ results → after.get? k = some q → q = r.value
  others : ∀ k q, k ∉ w.candidates.dict.keys → after.get? k = some q → before.get? k = some q

theorem capture_stored {copier : V → V} {candidates prepared : CacheEntries K V}
    {c : AsyncMemoryCache K V} {force replaceEqual : Bool} {v : SnapshotValue K V}
    (hcopies : CopiesOf copier candidates prepared)
    (hprep : ∃ w, prepared.get? v.key = some w) (hv : candidates.get? v.key = some v)
    (hs : writeStatus (c.get? v.key) v force replaceEqual = .stored) :
    (c.capture force replaceEqual prepared v).value = v.clone copier := by
  obtain ⟨w, hw⟩ := hprep
  obtain ⟨v', hv', rfl⟩ := hcopies _ _ hw
  rw [hv, Option.some.injEq] at hv'
  subst hv'
  simp [capture, hs, hw]

theorem capture_ignored {c : AsyncMemoryCache K V} {force replaceEqual : Bool}
    {prepared : CacheEntries K V} {v : SnapshotValue K V}
    (hs : writeStatus (c.get? v.key) v force replaceEqual ≠ .stored) :
    c.get? v.key = some (c.capture force replaceEqual prepared v).value := by
  cases hp : c.get? v.key with
  | none => exact absurd (by rw [hp]; rfl) hs
  | some p =>
    rw [hp] at hs
    simp [capture, hp, hs]

theorem commit_point {copier : V → V} {c d : AsyncMemoryCache K V} {w : Writer K V}
    {prepared : CacheEntries K V} {results : List (K × CapturedWriteResult K V)}
    (hcopies : CopiesOf copier w.candidates prepared)
    (hmissing : c.missingCandidates w.force w.replaceEqual prepared w.candidateList = [])
    (hcommit : c.commitLocked w.force w.replaceEqual prepared w.candidateList =
      some (results, d)) : CommitPoint c d w results := by
  have hnd : (w.candidateList.map SnapshotValue.key).Nodup := by
    rw [Writer.candidateList, CacheEntries.map_key_values]
    exact w.candidates.dict.nodup
  have hprep := prepared_of_no_missing hmissing
  obtain ⟨d', hd', hothers, hset⟩ := commitLocked_spec hnd hprep
  rw [hd', Option.some.injEq, Prod.mk.injEq] at hcommit
  obtain ⟨rfl, rfl⟩ := hcommit
  have hmem : ∀ {k r}, (k, r) ∈ w.candidateList.map
      (fun v => (v.key, c.capture w.force w.replaceEqual prepared v)) →
      ∃ v ∈ w.candidateList, v.key = k ∧ w.candidates.get? v.key = some v ∧
        c.capture w.force w.replaceEqual prepared v = r := by
    intro k r h
    obtain ⟨v, hv, he⟩ := List.mem_map.mp h
    rw [Prod.mk.injEq] at he
    exact ⟨v, hv, he.1, CacheEntries.mem_values.mp hv, he.2⟩
  refine ⟨?_, ?_, ?_, ?_, ?_, ?_, ?_⟩
  · rw [List.map_map, ← CacheEntries.map_key_values]
    rfl
  · intro k r h
    obtain ⟨v, _, rfl, hv, rfl⟩ := hmem h
    exact ⟨v, hv, rfl, rfl⟩
  · intro k r h hs
    obtain ⟨v, _, rfl, _, rfl⟩ := hmem h
    exact capture_ignored hs
  · intro hforce k r p h hp
    obtain ⟨v, hv, rfl, hcv, rfl⟩ := hmem h
    by_cases hs : writeStatus (c.get? v.key) v w.force w.replaceEqual = .stored
    · rw [capture_stored hcopies (hprep v hv hs) hcv hs, stamp_clone]
      rw [show c.get? v.key = some p from hp, hforce] at hs
      exact stamp_le_of_stored hs
    · have hsame : c.get? v.key = some (c.capture w.force w.replaceEqual prepared v).value :=
        capture_ignored hs
      rw [show c.get? v.key = some p from hp, Option.some.injEq] at hsame
      rw [← hsame]
  · intro hforce hreplace k r p h hst hp
    obtain ⟨v, hv, rfl, hcv, rfl⟩ := hmem h
    have hs : writeStatus (c.get? v.key) v w.force w.replaceEqual = .stored := hst
    rw [capture_stored hcopies (hprep v hv hs) hcv hs, stamp_clone]
    rw [show c.get? v.key = some p from hp, hforce, hreplace] at hs
    exact stamp_lt_of_stored hs
  · intro k r q h hq
    obtain ⟨v, hv, rfl, _, rfl⟩ := hmem h
    exact hset v hv q hq
  · intro k q hk hq
    rw [← CacheEntries.map_key_values] at hk
    exact hothers k q hk hq

/-- Across one commit of an unforced call no stamp decreases. -/
theorem CommitPoint.stamp_le {before after : AsyncMemoryCache K V} {w : Writer K V}
    {results : List (K × CapturedWriteResult K V)} (h : CommitPoint before after w results)
    (hforce : w.force = false) {k : K} {p q : SnapshotValue K V}
    (hp : before.get? k = some p) (hq : after.get? k = some q) : stamp p ≤ stamp q := by
  by_cases hk : k ∈ w.candidates.dict.keys
  · rw [← h.reported, List.mem_map] at hk
    obtain ⟨⟨k', r⟩, hr, rfl⟩ := hk
    obtain ⟨v, _, _, hprev⟩ := h.compared _ _ hr
    rw [h.replaced _ _ _ hr hq]
    exact h.ordered hforce _ _ _ hr (hprev.trans hp)
  · have hsame := h.others k q hk hq
    rw [hp, Option.some.injEq] at hsame
    rw [hsame]

/-! ## Rounds -/

/-- The candidates without a prepared copy. -/
def Writer.unprepared (w : Writer K V) (prepared : CacheEntries K V) : ℕ :=
  w.candidateList.countP fun v => (prepared.get? v.key).isNone

/-- The check rounds a call may still need; a failed call keeps the one it never reached. -/
def Writer.budget (w : Writer K V) : ℕ :=
  match w.phase with
  | .checking prepared => w.unprepared prepared + 1
  | .preparing _ prepared => w.unprepared prepared
  | .committed _ => 0
  | .failed => 1

theorem countP_lt_countP {α : Type} {p q : α → Bool} : ∀ {l : List α},
    (∀ x ∈ l, p x = true → q x = true) → (∃ x ∈ l, q x = true ∧ p x = false) →
      l.countP p < l.countP q
  | [], _, h => by simp at h
  | a :: l, himp, ⟨x, hx, hq, hp⟩ => by
      have himp' : ∀ y ∈ l, p y = true → q y = true :=
        fun y hy => himp y (List.mem_cons_of_mem _ hy)
      have hle : l.countP p ≤ l.countP q := List.countP_mono_left himp'
      have ha := himp a List.mem_cons_self
      rw [List.countP_cons, List.countP_cons]
      rcases List.mem_cons.mp hx with rfl | hx
      · rw [hq, hp]
        simp only [Bool.false_eq_true, if_false, if_true]
        omega
      · have hlt := countP_lt_countP himp' ⟨x, hx, hq, hp⟩
        cases hpa : p a
        · simp only [Bool.false_eq_true, if_false]
          omega
        · rw [ha hpa]
          omega

theorem unprepared_prepareCopies {copier : V → V} {w : Writer K V} {prepared : CacheEntries K V}
    {missing : List (SnapshotValue K V)} (hne : missing ≠ [])
    (hm : ∀ m ∈ missing, m ∈ w.candidateList ∧ prepared.get? m.key = none) :
    w.unprepared (prepareCopies copier missing prepared) < w.unprepared prepared := by
  obtain ⟨m, hmem⟩ := List.exists_mem_of_ne_nil missing hne
  refine countP_lt_countP ?_ ⟨m, (hm m hmem).1, by simp [(hm m hmem).2], ?_⟩
  · intro v _ hv
    cases hp : prepared.get? v.key with
    | none => rfl
    | some x =>
      have := prepareCopies_isSome copier missing prepared (k := v.key) (.inl (by simp [hp]))
      rw [Option.isNone_iff_eq_none] at hv
      simp [hv] at this
  · have := prepareCopies_isSome copier missing prepared (k := m.key)
      (.inr (List.mem_map.mpr ⟨m, hmem, rfl⟩))
    cases hp : (prepareCopies copier missing prepared).get? m.key with
    | none => simp [hp] at this
    | some x => rfl

theorem unprepared_pos {w : Writer K V} {prepared : CacheEntries K V}
    {missing : List (SnapshotValue K V)} (hne : missing ≠ [])
    (hm : ∀ m ∈ missing, m ∈ w.candidateList ∧ prepared.get? m.key = none) :
    0 < w.unprepared prepared := by
  obtain ⟨m, hmem⟩ := List.exists_mem_of_ne_nil missing hne
  exact List.countP_pos_iff.mpr ⟨m, (hm m hmem).1, by simp [(hm m hmem).2]⟩

theorem unprepared_le (w : Writer K V) (prepared : CacheEntries K V) :
    w.unprepared prepared ≤ w.candidates.size := by
  have h : w.candidateList.length = w.candidates.size := List.length_map _
  rw [← h]
  exact List.countP_le_length

theorem startWriter_budget (values : List (SnapshotValue K V)) (force replaceEqual : Bool) :
    (startWriter values force replaceEqual).budget ≤
      (startWriter values force replaceEqual).candidates.size + 1 := by
  unfold startWriter Writer.budget
  by_cases h : (selectCandidates values).dict.values = []
  · simp [h]
  · simp only [h, if_false]
    exact Nat.succ_le_succ (unprepared_le _ _)

/-- What one step does to one write call: nothing, one phase that leaves the cache alone, or its
commit. A check round costs one unit of the budget. -/
inductive WriterStep (s t : CacheTasks K V) (e : CacheEvent K V) (w : ℕ) (writer : Writer K V) :
    Prop
  | other : t.writers[w]? = some writer → e.checks w = false → WriterStep s t e w writer
  | phase (phase : WriterPhase K V) :
      t.writers[w]? = some { writer with phase := phase } → t.cache = s.cache →
      writer.phase.results = none → phase.results = none →
      ({ writer with phase := phase } : Writer K V).budget + (if e.checks w then 1 else 0) ≤
        writer.budget →
      WriterStep s t e w writer
  | commit (results : List (K × CapturedWriteResult K V)) :
      e = .check w → t.writers[w]? = some { writer with phase := .committed results } →
      writer.phase.results = none → CommitPoint s.cache t.cache writer results →
      1 ≤ writer.budget → WriterStep s t e w writer

theorem writer_step {copier : V → V} {s t : CacheTasks K V} {e : CacheEvent K V}
    (hs : s.Sound copier) (h : cacheStep copier s e = some t) {w : ℕ} {writer : Writer K V}
    (hw : s.writers[w]? = some writer) : WriterStep s t e w writer := by
  have hold := hs w writer hw
  cases cacheStep_cases h with
  | call values force replaceEqual ht =>
    subst ht
    refine .other ?_ rfl
    rw [List.getElem?_append_left (List.getElem?_eq_some_iff.mp hw).1]
    exact hw
  | commit i writer' prepared results cache hi hphase hmiss hcommit ht =>
    by_cases hiw : w = i
    · subst hiw
      rw [hw, Option.some.injEq] at hi
      subst hi
      unfold Writer.Sound at hold
      rw [hphase] at hold
      subst ht
      refine .commit results rfl (by rw [setPhase_get? hw, if_pos rfl]) (by rw [hphase]; rfl)
        (commit_point hold hmiss hcommit) ?_
      simp [Writer.budget, hphase]
    · subst ht
      refine .other (by rw [setPhase_get? hi, if_neg hiw]; exact hw) ?_
      simpa [CacheEvent.checks] using fun e : i = w => hiw e.symm
  | recheck i writer' prepared missing hi hphase hne hmiss ht =>
    by_cases hiw : w = i
    · subst hiw
      rw [hw, Option.some.injEq] at hi
      subst hi
      subst ht
      refine .phase _ (by rw [setPhase_get? hw, if_pos rfl]) rfl (by rw [hphase]; rfl) rfl ?_
      simp [Writer.budget, hphase, CacheEvent.checks, Writer.unprepared, Writer.candidateList]
    · subst ht
      refine .other (by rw [setPhase_get? hi, if_neg hiw]; exact hw) ?_
      simpa [CacheEvent.checks] using fun e : i = w => hiw e.symm
  | prepared i writer' missing prepared hi hphase ht =>
    by_cases hiw : w = i
    · subst hiw
      rw [hw, Option.some.injEq] at hi
      subst hi
      unfold Writer.Sound at hold
      rw [hphase] at hold
      have hlt : writer.unprepared (prepareCopies copier missing prepared) <
          writer.unprepared prepared := unprepared_prepareCopies hold.2.1 hold.2.2
      subst ht
      refine .phase _ (by rw [setPhase_get? hw, if_pos rfl]) rfl (by rw [hphase]; rfl) rfl ?_
      simp only [Writer.budget, hphase, CacheEvent.checks, Bool.false_eq_true, if_false]
      exact hlt
    · subst ht
      exact .other (by rw [setPhase_get? hi, if_neg hiw]; exact hw) rfl
  | copyFails i writer' missing prepared hi hphase ht =>
    by_cases hiw : w = i
    · subst hiw
      rw [hw, Option.some.injEq] at hi
      subst hi
      unfold Writer.Sound at hold
      rw [hphase] at hold
      subst ht
      refine .phase _ (by rw [setPhase_get? hw, if_pos rfl]) rfl (by rw [hphase]; rfl) rfl ?_
      have hpos := unprepared_pos hold.2.1 hold.2.2
      simp only [Writer.budget, hphase, CacheEvent.checks, Bool.false_eq_true, if_false]
      exact hpos
    · subst ht
      exact .other (by rw [setPhase_get? hi, if_neg hiw]; exact hw) rfl
  | removal _ hchecks hwriters _ => exact .other (by rw [hwriters]; exact hw) (hchecks w)

/-! ## Whole runs -/

/-- Every write call in progress runs with `force=False`. -/
def CacheTasks.Unforced (s : CacheTasks K V) : Prop :=
  ∀ (w : ℕ) (writer : Writer K V), s.writers[w]? = some writer → writer.force = false

theorem unforced_setPhase {s : CacheTasks K V} {w : ℕ} {writer : Writer K V}
    {phase : WriterPhase K V} {cache : AsyncMemoryCache K V} (hs : s.Unforced)
    (hw : s.writers[w]? = some writer) : (setPhase s w writer phase cache).Unforced := by
  intro i writer' hi
  rw [setPhase_get? hw] at hi
  by_cases h : i = w
  · rw [if_pos h, Option.some.injEq] at hi
    rw [← hi]
    exact hs w writer hw
  · rw [if_neg h] at hi
    exact hs i writer' hi

theorem unforced_step {copier : V → V} {s t : CacheTasks K V} {e : CacheEvent K V}
    (he : e.Unforced) (hs : s.Unforced) (h : cacheStep copier s e = some t) : t.Unforced := by
  cases cacheStep_cases h with
  | call values force replaceEqual ht =>
    subst ht
    intro i writer hi
    simp only [List.getElem?_append] at hi
    split at hi
    · exact hs i writer hi
    · rw [List.getElem?_singleton] at hi
      split at hi
      · rw [Option.some.injEq] at hi
        rw [← hi]
        exact he
      · cases hi
  | commit w writer prepared results cache hw hphase hmiss hcommit ht =>
    subst ht
    exact unforced_setPhase hs hw
  | recheck w writer prepared missing hw hphase hne hmiss ht =>
    subst ht
    exact unforced_setPhase hs hw
  | prepared w writer missing prepared hw hphase ht =>
    subst ht
    exact unforced_setPhase hs hw
  | copyFails w writer missing prepared hw hphase ht =>
    subst ht
    exact unforced_setPhase hs hw
  | removal _ _ hwriters _ =>
    intro i writer hi
    rw [hwriters] at hi
    exact hs i writer hi

/-- No step lowers the stamp of a key it keeps. -/
theorem stamp_step {copier : V → V} {s t : CacheTasks K V} {e : CacheEvent K V}
    (hs : s.Sound copier) (hu : s.Unforced) (h : cacheStep copier s e = some t) {k : K}
    {p q : SnapshotValue K V} (hp : s.cache.get? k = some p) (hq : t.cache.get? k = some q) :
    stamp p ≤ stamp q := by
  have hsame : s.cache.get? k = some q → stamp p ≤ stamp q := by
    intro h
    rw [hp, Option.some.injEq] at h
    rw [h]
  cases cacheStep_cases h with
  | call values force replaceEqual ht =>
    subst ht
    exact hsame hq
  | commit w writer prepared results cache hw hphase hmiss hcommit ht =>
    subst ht
    have hold := hs w writer hw
    unfold Writer.Sound at hold
    rw [hphase] at hold
    exact (commit_point hold hmiss hcommit).stamp_le (hu w writer hw) hp hq
  | recheck w writer prepared missing hw hphase hne hmiss ht =>
    subst ht
    exact hsame hq
  | prepared w writer missing prepared hw hphase ht =>
    subst ht
    exact hsame hq
  | copyFails w writer missing prepared hw hphase ht =>
    subst ht
    exact hsame hq
  | removal _ _ _ hwithin => exact hsame (hwithin k q hq)

theorem sound_run {copier : V → V} {ok : CacheTasks K V → CacheEvent K V → Prop}
    {s t : CacheTasks K V} {es : List (CacheEvent K V)} (h : RunOf (cacheStep copier) ok s es t)
    (hs : s.Sound copier) : t.Sound copier :=
  h.invariant (CacheTasks.Sound copier) (fun _ _ _ _ hs h => sound_step hs h) hs

theorem unforced_run {copier : V → V} {ok : CacheTasks K V → CacheEvent K V → Prop}
    {s t : CacheTasks K V} {es : List (CacheEvent K V)} (h : RunOf (cacheStep copier) ok s es t)
    (hok : ∀ s e, ok s e → e.Unforced) (hs : s.Unforced) : t.Unforced :=
  h.invariant CacheTasks.Unforced (fun _ _ _ hl hs h => unforced_step (hok _ _ hl) hs h) hs

/-- While a key stays present its stamp only grows. -/
theorem stamp_run {copier : V → V} {k : K} {s t : CacheTasks K V} {es : List (CacheEvent K V)}
    (h : RunOf (cacheStep copier) (fun s e => e.Unforced ∧ (s.cache.get? k).isSome) s es t) :
    s.Sound copier → s.Unforced → ∀ {p q : SnapshotValue K V}, s.cache.get? k = some p →
      t.cache.get? k = some q → stamp p ≤ stamp q := by
  induction h with
  | nil s =>
    intro _ _ p q hp hq
    rw [hp, Option.some.injEq] at hq
    rw [hq]
  | @cons s t u e es hok hst hrest ih =>
    intro hs hu p q hp hq
    have hs' := sound_step hs hst
    have hu' := unforced_step hok.1 hu hst
    cases hmid : t.cache.get? k with
    | some m => exact (stamp_step hs hu hst hp hmid).trans (ih hs' hu' hmid hq)
    | none =>
      cases hrest with
      | nil => rw [hmid] at hq; cases hq
      | cons hok' _ _ => simp [hmid] at hok'

/-- The rounds a call has used and those it may still need never exceed one per candidate and one
more. -/
theorem rounds_run {copier : V → V} {ok : CacheTasks K V → CacheEvent K V → Prop}
    {s t : CacheTasks K V} {es : List (CacheEvent K V)} {w : ℕ}
    (h : RunOf (cacheStep copier) ok s es t) :
    s.Sound copier → ∀ {writer : Writer K V}, t.writers[w]? = some writer →
      (∀ old, s.writers[w]? = some old → old.candidates = writer.candidates ∧
        es.countP (CacheEvent.checks w) + writer.budget ≤ old.budget) ∧
      (s.writers[w]? = none →
        es.countP (CacheEvent.checks w) + writer.budget ≤ writer.candidates.size + 1) := by
  induction h with
  | nil s =>
    intro _ writer hw
    refine ⟨fun old hold => ?_, fun hnone => by rw [hnone] at hw; cases hw⟩
    rw [hold, Option.some.injEq] at hw
    subst hw
    simp
  | @cons s t u e es hok hst hrest ih =>
    intro hs writer hw
    obtain ⟨hsome, hnone⟩ := ih (sound_step hs hst) hw
    rw [List.countP_cons]
    constructor
    · intro old hold
      cases writer_step hs hst hold with
      | other ht hchecks =>
        obtain ⟨hcand, hle⟩ := hsome old ht
        refine ⟨hcand, ?_⟩
        rw [hchecks]
        simpa using hle
      | phase phase ht _ _ _ hbudget =>
        obtain ⟨hcand, hle⟩ := hsome _ ht
        exact ⟨hcand, by omega⟩
      | commit results he ht _ _ hpos =>
        obtain ⟨hcand, hle⟩ := hsome _ ht
        refine ⟨hcand, ?_⟩
        have hzero : ({ old with phase := .committed results } : Writer K V).budget = 0 := rfl
        have hone : (if e.checks w then 1 else 0) ≤ 1 := by split <;> omega
        omega
    · intro hsnone
      have hchecks : e.checks w = false := by
        cases e with
        | check i =>
          by_contra hne
          have hi : i = w := by simpa [CacheEvent.checks] using hne
          simp [cacheStep, hi, hsnone] at hst
        | _ => rfl
      rw [hchecks]
      simp only [Bool.false_eq_true, if_false, Nat.add_zero]
      cases htw : t.writers[w]? with
      | none => exact hnone htw
      | some old =>
        obtain ⟨hcand, hle⟩ := hsome old htw
        have hstart : old.budget ≤ old.candidates.size + 1 := by
          cases cacheStep_cases hst with
          | call values force replaceEqual ht =>
            subst ht
            rw [List.getElem?_append] at htw
            split at htw
            · rw [hsnone] at htw; cases htw
            · rw [List.getElem?_singleton] at htw
              split at htw
              · rw [Option.some.injEq] at htw
                rw [← htw]
                exact startWriter_budget values force replaceEqual
              · cases htw
          | commit i writer' prepared results cache hi _ _ _ ht =>
            subst ht
            rw [setPhase_absent hi hsnone] at htw
            cases htw
          | recheck i writer' prepared missing hi _ _ _ ht =>
            subst ht
            rw [setPhase_absent hi hsnone] at htw
            cases htw
          | prepared i writer' missing prepared hi _ ht =>
            subst ht
            rw [setPhase_absent hi hsnone] at htw
            cases htw
          | copyFails i writer' missing prepared hi _ ht =>
            subst ht
            rw [setPhase_absent hi hsnone] at htw
            cases htw
          | removal _ _ hwriters _ => rw [hwriters, hsnone] at htw; cases htw
        rw [← hcand]
        omega

/-- A call that waits for the lock can always run its next round. -/
theorem check_enabled {copier : V → V} {s : CacheTasks K V} {w : ℕ} {writer : Writer K V}
    {prepared : CacheEntries K V} (hw : s.writers[w]? = some writer)
    (hphase : writer.phase = .checking prepared) :
    ∃ t, cacheStep copier s (.check w) = some t := by
  simp only [cacheStep, hw, hphase, checkRound]
  by_cases hmiss : s.cache.missingCandidates writer.force writer.replaceEqual prepared
      writer.candidateList = []
  · have hnd : (writer.candidateList.map SnapshotValue.key).Nodup := by
      rw [Writer.candidateList, CacheEntries.map_key_values]
      exact writer.candidates.dict.nodup
    obtain ⟨d, hd, _, _⟩ := commitLocked_spec hnd (prepared_of_no_missing hmiss)
    simp [hmiss, hd]
  · simp [hmiss]

/-- Cache writes are monotone and every call commits once: stated at a state `s` reached by the
events `es`, for everything that can follow. -/
structure MonotoneWrites (copier : V → V) (es : List (CacheEvent K V)) (s : CacheTasks K V) :
    Prop where
  /-- Between two removals of `k` its stamp never decreases. -/
  monotone : ∀ (k : K) (fs : List (CacheEvent K V)) (t : CacheTasks K V) (p q : SnapshotValue K V),
    RunOf (cacheStep copier) (fun u e => e.Unforced ∧ (u.cache.get? k).isSome) s fs t →
    s.cache.get? k = some p → t.cache.get? k = some q → stamp p ≤ stamp q
  /-- A write call is untouched by a step, or moves and leaves the cache alone, or commits its
  whole batch. -/
  commits : ∀ (e : CacheEvent K V) (t : CacheTasks K V) (w : ℕ) (writer : Writer K V),
    e.Unforced → cacheStep copier s e = some t → s.writers[w]? = some writer →
    t.writers[w]? = some writer ∨
    (∃ phase, t.writers[w]? = some { writer with phase := phase } ∧ t.cache = s.cache ∧
      writer.phase.results = none ∧ phase.results = none) ∨
    ∃ results, t.writers[w]? = some { writer with phase := .committed results } ∧
      writer.phase.results = none ∧ writer.force = false ∧
      CommitPoint s.cache t.cache writer results
  /-- With `n` candidates, the commit comes in check round `n + 1` at the latest. -/
  rounds : ∀ (w : ℕ) (writer : Writer K V), s.writers[w]? = some writer →
    es.countP (CacheEvent.checks w) ≤ writer.candidates.size + 1 ∧
    (es.countP (CacheEvent.checks w) = writer.candidates.size + 1 →
      ∃ results, writer.phase = .committed results)
  /-- No check round of a waiting call can fail. -/
  enabled : ∀ (w : ℕ) (writer : Writer K V) prepared, s.writers[w]? = some writer →
    writer.phase = .checking prepared → ∃ t, cacheStep copier s (.check w) = some t

theorem budget_pos {copier : V → V} {writer : Writer K V} (h : writer.Sound copier)
    (hz : writer.budget = 0) : ∃ results, writer.phase = .committed results := by
  unfold Writer.Sound at h
  unfold Writer.budget at hz
  cases hphase : writer.phase with
  | checking prepared => simp [hphase] at hz
  | preparing missing prepared =>
    rw [hphase] at h hz
    have := unprepared_pos h.2.1 h.2.2
    simp only at hz
    omega
  | committed results => exact ⟨results, rfl⟩
  | failed => simp [hphase] at hz

end

/-- Two calls race for one key: the second commit finds the stamp of the first. -/
def raceOfTwoWriters : List (CacheEvent ℕ ℕ) :=
  let value (payload : ℕ) (observedAt : ℚ) (version : ℕ) : SnapshotValue ℕ ℕ :=
    ⟨0, payload, "rest", observedAt, observedAt, 0, false, false, 0, version, Dict.empty⟩
  [.call [value 7 1 0] false false, .call [value 8 2 1] false false, .check 0, .check 1,
    .prepared 0, .prepared 1, .check 1, .check 0, .invalidateMany [0]]

end Coalestra
