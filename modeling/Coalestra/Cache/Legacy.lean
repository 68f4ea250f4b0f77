import Coalestra.Cache.Publisher
import Coalestra.Orchestration.CacheAccess

/-! # Publications over a cache without atomic writes

`cache/publisher.py` where the cache offers only `get`, `set` and `invalidate`: the publisher reads
what is cached, decides itself which candidates are ignored and writes the others one by one. Here
one `publish_many` call runs alone, over `AsyncMemoryCache` and over such a cache. -/

namespace Coalestra
set_option autoImplicit false
set_option maxHeartbeats 250000

open AsyncMemoryCache

/-! ## The fallback -/

/-- A cache with `get`, `set` and `invalidate`, for every content. -/
structure SingleKeyCache (K V : Type) [DecidableEq K] where
  serve : CacheEntries K V → PlainCache K V
  serve_entries : ∀ e, (serve e).entries = e

section
variable {K V : Type}

/-- `_ignored_status`. -/
def ignoredStatus (previous : Option (SnapshotValue K V)) (candidate : SnapshotValue K V)
    (force replaceEqual : Bool) : Option PublishStatus :=
  match previous with
  | none => none
  | some previous =>
    if force then none
    else if candidate.authorityRank < previous.authorityRank then some .ignoredLowerAuthority
    else if previous.authorityRank < candidate.authorityRank then none
    else if candidate.observedAt < previous.observedAt then some .ignoredOlder
    else if previous.observedAt = candidate.observedAt ∧ replaceEqual = false then
      some .ignoredDuplicate
    else none

/-- An entry of `provisional_results`. -/
def provisionalResult (previous : Option (SnapshotValue K V)) (candidate : SnapshotValue K V)
    (force replaceEqual : Bool) : PublishResult K V :=
  match ignoredStatus previous candidate force replaceEqual, previous with
  | some status, some kept => ⟨status, kept, some kept⟩
  | _, _ => ⟨.published, candidate, previous⟩

/-- The candidates `publish_many` hands to `_set_many_legacy`. -/
def legacyWrites (previous : K → Option (SnapshotValue K V)) (force replaceEqual : Bool)
    (candidates : List (SnapshotValue K V)) : List (SnapshotValue K V) :=
  candidates.filter fun v => (ignoredStatus (previous v.key) v force replaceEqual).isNone

end

section
variable {K V : Type} [DecidableEq K]

/-- A dictionary of values behind the three operations. -/
def SingleKeyCache.ofEntries : SingleKeyCache K V := ⟨PlainCache.ofEntries, fun _ => rfl⟩

/-- `_get_existing` for one key. -/
def SingleKeyCache.existing (cache : SingleKeyCache K V) (copier : V → V) (e : CacheEntries K V)
    (now : ℚ) (k : K) : Option (SnapshotValue K V) :=
  ((cache.serve e).get k now .allValues).value.map (SnapshotValue.clone copier)

/-- The unbounded window hides nothing. -/
theorem SingleKeyCache.existing_eq (cache : SingleKeyCache K V) (copier : V → V)
    (e : CacheEntries K V) (now : ℚ) (k : K) :
    cache.existing copier e now k = (e.get? k).map (SnapshotValue.clone copier) := by
  rw [existing, PlainCache.get_eq _ fun _ _ => le_top, cache.serve_entries]

namespace AsyncMemoryCache

/-- The loop of `set_many_if_newer` when nothing else touches the cache. -/
def setManyRounds (copier : V → V) (c : AsyncMemoryCache K V) (force replaceEqual : Bool)
    (candidates : List (SnapshotValue K V)) :
    ℕ → CacheEntries K V → Option (List (K × CapturedWriteResult K V) × AsyncMemoryCache K V)
  | 0, _ => none
  | fuel + 1, prepared =>
    let missing := c.missingCandidates force replaceEqual prepared candidates
    if missing = [] then c.commitLocked force replaceEqual prepared candidates
    else setManyRounds copier c force replaceEqual candidates fuel
      (prepareCopies copier missing prepared)

/-- `set_many_if_newer`: the second round finds every copy prepared. -/
def setManyIfNewer (copier : V → V) (c : AsyncMemoryCache K V) (values : List (SnapshotValue K V))
    (force replaceEqual : Bool) :
    Option (List (K × CapturedWriteResult K V) × AsyncMemoryCache K V) :=
  let candidates := (selectCandidates values).dict.values
  if candidates = [] then some ([], c)
  else setManyRounds copier c force replaceEqual candidates 2 .empty

end AsyncMemoryCache

namespace ResourcePublisher

/-- `publish_many` over `AsyncMemoryCache`, whose copier may be another; no results when it raises.
What `_get_existing` found is not used once the cache has answered. -/
def publishMany (p : ResourcePublisher K V) (copier : V → V) (cache : AsyncMemoryCache K V)
    (now : ℚ) (version : ℕ) (updates : List (ResourceUpdate K V)) (force replaceEqual : Bool) :
    Option (List (K × PublishResult K V)) × AsyncMemoryCache K V :=
  if updates = [] then (some [], cache)
  else if updates.all (p.accepts now) then
    let candidates := p.prepareCandidates now version (p.selectUpdates now updates).values
    let read := (cache.getMany now (fun _ => .allValues) (candidates.map SnapshotValue.key)).2
    match read.setManyIfNewer copier (candidates.map (SnapshotValue.clone p.copier)) force
        replaceEqual with
    | none => (none, read)
    | some (results, written) =>
      (some (results.map fun r => (r.1, publishResultFromCache p.copier r.2)), written)
  else (none, cache)

/-- `publish_many` over a cache without atomic writes. -/
def publishManyLegacy (p : ResourcePublisher K V) (cache : SingleKeyCache K V)
    (e : CacheEntries K V) (now : ℚ) (version : ℕ) (updates : List (ResourceUpdate K V))
    (force replaceEqual : Bool) : Option (List (K × PublishResult K V)) × CacheEntries K V :=
  if updates = [] then (some [], e)
  else if updates.all (p.accepts now) then
    let candidates := p.prepareCandidates now version (p.selectUpdates now updates).values
    let previous := cache.existing p.copier e now
    let writes := legacyWrites previous force replaceEqual candidates
    (some (candidates.map fun v =>
        (v.key, provisionalResult (previous v.key) v force replaceEqual)),
      (writes.map (SnapshotValue.clone p.copier)).foldl CacheEntries.put e)
  else (none, e)

end ResourcePublisher

/-! ## The candidates of one call -/

namespace ResourcePublisher

/-- The selected update of a key is one of the updates, and of that key. -/
theorem selectUpdates_spec (p : ResourcePublisher K V) (now : ℚ)
    (updates : List (ResourceUpdate K V)) {k : K} {u : ResourceUpdate K V}
    (h : (p.selectUpdates now updates).get? k = some u) : u ∈ updates ∧ u.key = k := by
  have hset : ∀ (d : Dict K (ResourceUpdate K V)) (v : ResourceUpdate K V), v ∈ updates →
      (∀ k u, d.get? k = some u → u ∈ updates ∧ u.key = k) →
      ∀ k u, (d.set v.key v).get? k = some u → u ∈ updates ∧ u.key = k := by
    intro d v hv hd k u hu
    rw [Dict.get?_set] at hu
    by_cases hk : k = v.key
    · rw [if_pos hk, Option.some.injEq] at hu
      exact ⟨hu ▸ hv, by rw [← hu, hk]⟩
    · rw [if_neg hk] at hu
      exact hd k u hu
  have hall : ∀ k u, (p.selectUpdates now updates).get? k = some u → u ∈ updates ∧ u.key = k := by
    unfold selectUpdates
    refine List.foldlRecOn (motive := fun d : Dict K (ResourceUpdate K V) =>
      ∀ k u, d.get? k = some u → u ∈ updates ∧ u.key = k) updates _ (by simp) fun d hd v hv => ?_
    split
    · exact hset d v hv hd
    · split
      · exact hset d v hv hd
      · exact hd
  exact hall k u h

omit [DecidableEq K] in
theorem prepareCandidates_keys (p : ResourcePublisher K V) (now : ℚ) :
    ∀ (version : ℕ) (updates : List (ResourceUpdate K V)),
      (p.prepareCandidates now version updates).map SnapshotValue.key =
        updates.map ResourceUpdate.key
  | _, [] => rfl
  | version, u :: updates => by
      rw [prepareCandidates, List.map_cons, List.map_cons, p.prepareCandidates_keys]
      rfl

/-- One candidate for every key. -/
theorem candidates_nodup (p : ResourcePublisher K V) (now : ℚ) (version : ℕ)
    (updates : List (ResourceUpdate K V)) :
    ((p.prepareCandidates now version (p.selectUpdates now updates).values).map
      SnapshotValue.key).Nodup := by
  have hkeys : (p.selectUpdates now updates).values.map ResourceUpdate.key =
      (p.selectUpdates now updates).keys := by
    rw [Dict.values, Dict.keys, List.map_map]
    exact List.map_congr_left fun pair hpair =>
      (p.selectUpdates_spec now updates (Dict.mem_entries.mp hpair)).2
  rw [prepareCandidates_keys, hkeys]
  exact (p.selectUpdates now updates).nodup

/-- Every candidate is for a key of the batch. -/
theorem candidates_keys (p : ResourcePublisher K V) {now : ℚ} {version : ℕ}
    {updates : List (ResourceUpdate K V)} {v : SnapshotValue K V}
    (h : v ∈ p.prepareCandidates now version (p.selectUpdates now updates).values) :
    v.key ∈ updates.map ResourceUpdate.key := by
  have hkey := List.mem_map_of_mem (f := SnapshotValue.key) h
  rw [prepareCandidates_keys] at hkey
  obtain ⟨u, hu, huk⟩ := List.mem_map.mp hkey
  obtain ⟨⟨k, w⟩, hpair, rfl⟩ := List.mem_map.mp hu
  rw [← huk]
  exact List.mem_map_of_mem (p.selectUpdates_spec now updates (Dict.mem_entries.mp hpair)).1

end ResourcePublisher

/-! ## The two decisions -/

omit [DecidableEq K] in
/-- The publisher and the cache decide alike. -/
theorem ignoredStatus_eq (previous : Option (SnapshotValue K V)) (v : SnapshotValue K V)
    (force replaceEqual : Bool) :
    (ignoredStatus previous v force replaceEqual).getD .published =
        (writeStatus previous v force replaceEqual).publishStatus ∧
      ((ignoredStatus previous v force replaceEqual).isNone ↔
        writeStatus previous v force replaceEqual = .stored) := by
  cases previous with
  | none => exact ⟨rfl, by simp [ignoredStatus]⟩
  | some kept =>
    cases force with
    | true => exact ⟨rfl, by simp [ignoredStatus, writeStatus]⟩
    | false =>
      simp only [ignoredStatus, writeStatus, Bool.false_eq_true, if_false]
      by_cases hlow : v.authorityRank < kept.authorityRank
      · simp [hlow, CacheWriteStatus.publishStatus]
      · by_cases hhigh : kept.authorityRank < v.authorityRank
        · simp [hlow, hhigh, CacheWriteStatus.publishStatus]
        · by_cases hold : v.observedAt < kept.observedAt
          · simp [hlow, hhigh, hold, CacheWriteStatus.publishStatus]
          · by_cases heq : kept.observedAt = v.observedAt
            · cases replaceEqual <;> simp [hlow, hhigh, heq, CacheWriteStatus.publishStatus]
            · simp [hlow, hhigh, hold, heq, Ne.symm heq, CacheWriteStatus.publishStatus]

omit [DecidableEq K] in
theorem provisionalResult_status (previous : Option (SnapshotValue K V)) (v : SnapshotValue K V)
    (force replaceEqual : Bool) : (provisionalResult previous v force replaceEqual).status =
      (writeStatus previous v force replaceEqual).publishStatus := by
  rw [← (ignoredStatus_eq previous v force replaceEqual).1]
  cases previous with
  | none => rfl
  | some kept =>
    unfold provisionalResult
    cases ignoredStatus (some kept) v force replaceEqual <;> rfl

omit [DecidableEq K] in
/-- Only ranks and times decide. -/
theorem ignoredStatus_clone (copier : V → V) (previous : Option (SnapshotValue K V))
    (v : SnapshotValue K V) (force replaceEqual : Bool) :
    ignoredStatus (previous.map (SnapshotValue.clone copier)) v force replaceEqual =
      ignoredStatus previous v force replaceEqual := by
  cases previous <;> rfl

/-! ## The memory cache alone -/

namespace AsyncMemoryCache

/-- No entry is derived from another. -/
def Plain (c : AsyncMemoryCache K V) : Prop :=
  ∀ k v, c.get? k = some v → v.dependencyVersions.entries = []

/-- An unbounded read of a plain cache removes nothing. -/
theorem lookupLocked_plain {c : AsyncMemoryCache K V} (h : c.Plain) (now : ℚ) (key : K) :
    (∀ k, (c.lookupLocked now .allValues key).2.get? k = c.get? k) ∧
      (c.lookupLocked now .allValues key).2.maxEntries = c.maxEntries := by
  unfold lookupLocked
  cases hget : c.get? key with
  | none => exact ⟨fun _ => rfl, rfl⟩
  | some value =>
    have hcurrent : c.dependenciesCurrent value = true := by
      rw [dependenciesCurrent, dependenciesCurrentLocked, if_pos (h key value hget)]
    have hwindow : ¬ FreshnessPolicy.allValues.maxStaleSeconds <
        (ageAt now value.observedAt : WithTop ℚ) := not_lt.mpr le_top
    have hfresh : (ageAt now value.observedAt : WithTop ℚ) ≤
        FreshnessPolicy.allValues.ttlSeconds := le_top
    simp only [hcurrent, hwindow, hfresh, if_true, if_false, Bool.true_eq_false]
    exact ⟨fun _ => CacheEntries.get?_touch _ _ _, trivial⟩

theorem getManyLocked_plain (now : ℚ) : ∀ (keys : List K) {c : AsyncMemoryCache K V},
    c.Plain → (∀ k, (getManyLocked now (fun _ => .allValues) keys c).2.get? k = c.get? k) ∧
      (getManyLocked now (fun _ => .allValues) keys c).2.maxEntries = c.maxEntries
  | [], _, _ => ⟨fun _ => rfl, rfl⟩
  | key :: keys, c, h => by
      obtain ⟨hfirst, hlimit⟩ := lookupLocked_plain h now key
      have hplain : (c.lookupLocked now .allValues key).2.Plain := by
        intro j v hj
        rw [hfirst] at hj
        exact h j v hj
      obtain ⟨hget, hmax⟩ := getManyLocked_plain now keys hplain
      exact ⟨fun k => (hget k).trans (hfirst k), hmax.trans hlimit⟩

/-- Candidates of different keys are all selected, in their order. -/
theorem selectCandidates_values {values : List (SnapshotValue K V)}
    (hnd : (values.map SnapshotValue.key).Nodup) :
    (selectCandidates values).dict.values = values := by
  have hfold : ∀ (rest before : List (SnapshotValue K V)) (e : CacheEntries K V),
      e.dict.entries = before.map (fun v => (v.key, v)) →
      ((before ++ rest).map SnapshotValue.key).Nodup →
      (rest.foldl (fun selected value =>
        match selected.get? value.key with
        | none => selected.put value
        | some current => if candidatePrecedes current value then selected.put value else selected)
        e).dict.entries = (before ++ rest).map fun v => (v.key, v) := by
    intro rest
    induction rest with
    | nil =>
      intro before e he _
      rw [List.foldl_nil, he, List.append_nil]
    | cons value rest ih =>
      intro before e he hnd
      have hnew : value.key ∉ e.dict.keys := by
        rw [Dict.keys, he, List.map_map]
        intro hm
        rw [List.map_append, List.nodup_append] at hnd
        exact hnd.2.2 _ hm _ (List.mem_map_of_mem List.mem_cons_self) rfl
      have hget : e.get? value.key = none := Dict.get?_eq_none.mpr hnew
      rw [List.foldl_cons, hget, ← List.singleton_append, ← List.append_assoc]
      refine ih (before ++ [value]) _ ?_ (by simpa using hnd)
      show (e.dict.set value.key value).entries = _
      rw [Dict.entries_set_new hnew, he, List.map_append]
      rfl
  have hentries : (selectCandidates values).dict.entries = values.map fun v => (v.key, v) :=
    hfold values [] .empty rfl hnd
  rw [Dict.values, hentries, List.map_map]
  exact List.map_id _

/-- A commit leaves the limit alone. -/
theorem commitCandidates_maxEntries {force replaceEqual : Bool} {prepared : CacheEntries K V} :
    ∀ {candidates : List (SnapshotValue K V)} {c d : AsyncMemoryCache K V}
      {results : List (K × CapturedWriteResult K V)},
      commitCandidates force replaceEqual prepared candidates c = some (results, d) →
        d.maxEntries = c.maxEntries
  | [], c, d, results, h => by
      rw [commitCandidates, Option.some.injEq, Prod.mk.injEq] at h
      rw [h.2]
  | v :: candidates, c, d, results, h => by
      obtain ⟨first, hfirst, h⟩ := Option.bind_eq_some_iff.mp h
      obtain ⟨rest, hrest, h⟩ := Option.bind_eq_some_iff.mp h
      rw [Option.some.injEq, Prod.mk.injEq] at h
      rw [← h.2, commitCandidates_maxEntries hrest]
      simp only [commitOne] at hfirst
      split at hfirst
      · obtain ⟨stored, -, rfl⟩ := Option.map_eq_some_iff.mp hfirst
        rfl
      · obtain ⟨current, -, rfl⟩ := Option.map_eq_some_iff.mp hfirst
        rfl

/-- What a call that runs alone over an unlimited cache answers and leaves. -/
structure WrittenAlone (copier : V → V) (c : AsyncMemoryCache K V)
    (values : List (SnapshotValue K V)) (force replaceEqual : Bool)
    (results : List (K × CapturedWriteResult K V)) (d : AsyncMemoryCache K V) : Prop where
  statuses : results.map (fun r => (r.1, r.2.status)) =
    values.map fun v => (v.key, writeStatus (c.get? v.key) v force replaceEqual)
  others : ∀ k, k ∉ values.map SnapshotValue.key → d.get? k = c.get? k
  own : ∀ v ∈ values, d.get? v.key =
    if writeStatus (c.get? v.key) v force replaceEqual = .stored then some (v.clone copier)
    else c.get? v.key

theorem WrittenAlone.of_get? {copier : V → V} {c c' d : AsyncMemoryCache K V}
    {values : List (SnapshotValue K V)} {force replaceEqual : Bool}
    {results : List (K × CapturedWriteResult K V)}
    (h : c.WrittenAlone copier values force replaceEqual results d)
    (hget : ∀ k, c.get? k = c'.get? k) :
    c'.WrittenAlone copier values force replaceEqual results d := by
  have heq : c.get? = c'.get? := funext hget
  obtain ⟨hstatuses, hothers, hown⟩ := h
  rw [heq] at hstatuses hothers hown
  exact ⟨hstatuses, hothers, hown⟩

theorem setManyIfNewer_alone (copier : V → V) {c : AsyncMemoryCache K V}
    (hmax : c.maxEntries = none) {values : List (SnapshotValue K V)}
    (hnd : (values.map SnapshotValue.key).Nodup) (force replaceEqual : Bool) :
    ∃ results d, c.setManyIfNewer copier values force replaceEqual = some (results, d) ∧
      c.WrittenAlone copier values force replaceEqual results d := by
  -- Whatever is prepared are copies of candidates, so a commit writes copies.
  have hcommit : ∀ prepared : CacheEntries K V,
      (∀ v ∈ values, ∀ w, prepared.get? v.key = some w → w = v.clone copier) →
      c.missingCandidates force replaceEqual prepared values = [] →
      ∃ results d, c.commitLocked force replaceEqual prepared values = some (results, d) ∧
        c.WrittenAlone copier values force replaceEqual results d := by
    intro prepared hcopies hmissing
    have hprep := prepared_of_no_missing hmissing
    obtain ⟨d, hd, hother, hown⟩ := commitCandidates_spec hnd hprep
    have hlimit : d.enforceLimitLocked = d := by
      unfold enforceLimitLocked
      split
      · rfl
      · rename_i limit hsome
        rw [commitCandidates_maxEntries hd, hmax] at hsome
        cases hsome
    refine ⟨_, d, by rw [commitLocked, hd, Option.map_some, hlimit], ?_, hother, ?_⟩
    · rw [List.map_map]
      rfl
    · intro v hv
      rw [hown v hv, capture]
      simp only
      by_cases hstored : writeStatus (c.get? v.key) v force replaceEqual = .stored
      · obtain ⟨w, hw⟩ := hprep v hv hstored
        rw [if_pos hstored, if_pos hstored, hw, Option.getD_some, hcopies v hv w hw]
      · rw [if_neg hstored, if_neg hstored]
        cases hget : c.get? v.key with
        | none => exact absurd (by rw [hget]; rfl) hstored
        | some kept => rfl
  rw [setManyIfNewer, selectCandidates_values hnd]
  by_cases hnil : values = []
  · rw [if_pos hnil, hnil]
    exact ⟨[], c, rfl, rfl, fun _ _ => rfl, by simp⟩
  · rw [if_neg hnil, setManyRounds]
    by_cases hmissing : c.missingCandidates force replaceEqual .empty values = []
    · rw [if_pos hmissing]
      exact hcommit .empty (fun _ _ _ hw => by cases hw) hmissing
    · rw [if_neg hmissing, setManyRounds]
      have hkey : ∀ v ∈ values, ∀ w ∈ values, v.key = w.key → v = w := by
        intro v hv w hw heq
        exact List.inj_on_of_nodup_map hnd hv hw heq
      have hnone : c.missingCandidates force replaceEqual
          (prepareCopies copier (c.missingCandidates force replaceEqual .empty values) .empty)
          values = [] := by
        rw [missingCandidates, List.filter_eq_nil_iff]
        intro v hv hm
        rw [Bool.and_eq_true, decide_eq_true_eq] at hm
        have hsome := prepareCopies_isSome copier
          (c.missingCandidates force replaceEqual .empty values) .empty (k := v.key)
          (.inr (List.mem_map_of_mem (List.mem_filter.mpr ⟨hv, by simp [hm.1]⟩)))
        rw [Option.isNone_iff_eq_none] at hm
        rw [hm.2] at hsome
        cases hsome
      rw [if_pos hnone]
      refine hcommit _ (fun v hv w hw => ?_) hnone
      rcases prepareCopies_get? copier _ _ hw with hw | ⟨m, hm, hmk, rfl⟩
      · cases hw
      · rw [hkey m (List.mem_of_mem_filter hm) v hv hmk]

end AsyncMemoryCache

/-! ## The fallback alone -/

/-- Writes under different keys do not disturb each other. -/
theorem get?_puts (k : K) : ∀ (writes : List (SnapshotValue K V)) (e : CacheEntries K V),
    (writes.map SnapshotValue.key).Nodup →
      (k ∉ writes.map SnapshotValue.key → (writes.foldl CacheEntries.put e).get? k = e.get? k) ∧
      ∀ v ∈ writes, v.key = k → (writes.foldl CacheEntries.put e).get? k = some v
  | [], _, _ => ⟨fun _ => rfl, nofun⟩
  | w :: writes, e, hnd => by
      rw [List.map_cons, List.nodup_cons] at hnd
      obtain ⟨hother, hown⟩ := get?_puts k writes (e.put w) hnd.2
      refine ⟨fun hk => ?_, fun v hv hvk => ?_⟩
      · rw [List.map_cons, List.mem_cons, not_or] at hk
        rw [List.foldl_cons, hother hk.2, CacheEntries.get?_put, if_neg hk.1]
      · rw [List.foldl_cons]
        rcases List.mem_cons.mp hv with rfl | hv
        · rw [hother (hvk ▸ hnd.1), CacheEntries.get?_put, if_pos hvk.symm]
        · exact hown v hv hvk

/-- The fallback writes exactly what an atomic cache would store. -/
theorem legacyWrites_get? {previous : K → Option (SnapshotValue K V)} {copier : V → V}
    {candidates : List (SnapshotValue K V)} {e : CacheEntries K V} (force replaceEqual : Bool)
    (hnd : (candidates.map SnapshotValue.key).Nodup)
    (hprevious : ∀ k, previous k = (e.get? k).map (SnapshotValue.clone copier)) :
    (∀ k, k ∉ candidates.map SnapshotValue.key →
      (((legacyWrites previous force replaceEqual candidates).map
        (SnapshotValue.clone copier)).foldl CacheEntries.put e).get? k = e.get? k) ∧
    ∀ v ∈ candidates,
      (((legacyWrites previous force replaceEqual candidates).map
        (SnapshotValue.clone copier)).foldl CacheEntries.put e).get? v.key =
      if writeStatus (e.get? v.key) v force replaceEqual = .stored then some (v.clone copier)
      else e.get? v.key := by
  have hkeys : ((legacyWrites previous force replaceEqual candidates).map
      (SnapshotValue.clone copier)).map SnapshotValue.key =
        (legacyWrites previous force replaceEqual candidates).map SnapshotValue.key := by
    rw [List.map_map]
    rfl
  have hsub : ((legacyWrites previous force replaceEqual candidates).map
      SnapshotValue.key).Sublist (candidates.map SnapshotValue.key) :=
    List.filter_sublist.map _
  have hwrites : ∀ v, v ∈ legacyWrites previous force replaceEqual candidates ↔
      v ∈ candidates ∧ writeStatus (e.get? v.key) v force replaceEqual = .stored := by
    intro v
    rw [legacyWrites, List.mem_filter, hprevious, ignoredStatus_clone,
      (ignoredStatus_eq _ _ _ _).2]
  refine ⟨fun k hk => ?_, fun v hv => ?_⟩
  · refine (get?_puts k _ e (by rw [hkeys]; exact hnd.sublist hsub)).1 ?_
    rw [hkeys]
    exact fun hm => hk (hsub.subset hm)
  · have hput := get?_puts v.key ((legacyWrites previous force replaceEqual candidates).map
      (SnapshotValue.clone copier)) e (by rw [hkeys]; exact hnd.sublist hsub)
    by_cases hstored : writeStatus (e.get? v.key) v force replaceEqual = .stored
    · rw [if_pos hstored]
      exact hput.2 _ (List.mem_map_of_mem ((hwrites v).mpr ⟨hv, hstored⟩)) rfl
    · rw [if_neg hstored]
      refine hput.1 ?_
      rw [hkeys]
      intro hm
      obtain ⟨w, hw, hwk⟩ := List.mem_map.mp hm
      obtain ⟨hwc, hws⟩ := (hwrites w).mp hw
      rw [List.inj_on_of_nodup_map hnd hwc hv hwk] at hws
      exact hstored hws

/-! ## Agreement -/

/-- What the two caches are compared by. -/
def SnapshotValue.facts (v : SnapshotValue K V) : String × ℚ × ℤ × V :=
  (v.source, v.observedAt, v.authorityRank, v.value)

/-- The two calls answer the same statuses, or both raise, and leave the same entries. -/
structure SameOutcome (atomic : Option (List (K × PublishResult K V)) × AsyncMemoryCache K V)
    (legacy : Option (List (K × PublishResult K V)) × CacheEntries K V) : Prop where
  statuses : atomic.1.map (List.map fun r => (r.1, r.2.status)) =
    legacy.1.map (List.map fun r => (r.1, r.2.status))
  entries : ∀ k, (atomic.2.get? k).map SnapshotValue.facts =
    (legacy.2.get? k).map SnapshotValue.facts

omit [DecidableEq K] in
theorem clone_eq_self {copier : V → V} (h : ∀ v, copier v = v) (v : SnapshotValue K V) :
    v.clone copier = v := by
  rw [SnapshotValue.clone, h]

section
variable {p : ResourcePublisher K V} {copier : V → V} {cache : AsyncMemoryCache K V} {now : ℚ}
  {version : ℕ} {updates : List (ResourceUpdate K V)} {force replaceEqual : Bool}

/-- What an accepted batch does over the memory cache. -/
theorem publishMany_accepted (hcopies : ∀ v, p.copier v = v)
    (hmax : cache.maxEntries = none) (hplain : cache.Plain) (hne : updates ≠ [])
    (haccepts : updates.all (p.accepts now) = true) :
    ∃ results d, p.publishMany copier cache now version updates force replaceEqual =
        (some (results.map fun r => (r.1, publishResultFromCache p.copier r.2)), d) ∧
      cache.WrittenAlone copier
        (p.prepareCandidates now version (p.selectUpdates now updates).values) force replaceEqual
        results d := by
  have hnd := p.candidates_nodup now version updates
  have hvalues : (p.prepareCandidates now version (p.selectUpdates now updates).values).map
      (SnapshotValue.clone p.copier) =
        p.prepareCandidates now version (p.selectUpdates now updates).values := by
    conv_rhs => rw [← List.map_id (p.prepareCandidates _ _ _)]
    exact List.map_congr_left fun v _ => clone_eq_self hcopies v
  obtain ⟨hread, hlimit⟩ := getManyLocked_plain now (Dict.fromKeys
    ((p.prepareCandidates now version (p.selectUpdates now updates).values).map
      SnapshotValue.key)) hplain
  obtain ⟨results, d, hset, halone⟩ := setManyIfNewer_alone copier (hlimit.trans hmax) hnd force
    replaceEqual
  refine ⟨results, d, ?_, halone.of_get? hread⟩
  rw [ResourcePublisher.publishMany, if_neg hne, if_pos haccepts]
  simp only [hvalues, getMany, hset]

end

/-- Over the same entries, none of them derived, `publish_many` does the same whether the cache
writes atomically or not; a batch with a rejected time changes nothing and has no results. -/
theorem publications_agree (p : ResourcePublisher K V) (copier : V → V)
    (plain : SingleKeyCache K V) (cache : AsyncMemoryCache K V) (e : CacheEntries K V) (now : ℚ)
    (version : ℕ) (updates : List (ResourceUpdate K V)) (force replaceEqual : Bool)
    (hcopies : ∀ v, p.copier v = v) (hcopies' : ∀ v, copier v = v)
    (hmax : cache.maxEntries = none) (hplain : cache.Plain)
    (hsame : ∀ k, cache.get? k = e.get? k) :
    SameOutcome (p.publishMany copier cache now version updates force replaceEqual)
        (p.publishManyLegacy plain e now version updates force replaceEqual) ∧
      (updates.all (p.accepts now) = true →
        (p.publishMany copier cache now version updates force replaceEqual).1.isSome) ∧
      (updates.all (p.accepts now) = false →
        p.publishMany copier cache now version updates force replaceEqual = (none, cache) ∧
          p.publishManyLegacy plain e now version updates force replaceEqual = (none, e)) := by
  by_cases hnil : updates = []
  · rw [ResourcePublisher.publishMany, ResourcePublisher.publishManyLegacy, if_pos hnil,
      if_pos hnil, hnil]
    refine ⟨⟨rfl, fun k => by rw [hsame]⟩, fun _ => rfl, nofun⟩
  · cases haccepts : updates.all (p.accepts now) with
    | false =>
      have hatomic : p.publishMany copier cache now version updates force replaceEqual =
          (none, cache) := by
        rw [ResourcePublisher.publishMany, if_neg hnil, haccepts]
        rfl
      have hlegacy : p.publishManyLegacy plain e now version updates force replaceEqual =
          (none, e) := by
        rw [ResourcePublisher.publishManyLegacy, if_neg hnil, haccepts]
        rfl
      rw [hatomic, hlegacy]
      exact ⟨⟨rfl, fun k => by rw [hsame]⟩, nofun, fun _ => ⟨rfl, rfl⟩⟩
    | true =>
      have hnd := p.candidates_nodup now version updates
      have hget : cache.get? = e.get? := funext hsame
      obtain ⟨results, d, hatomic, hstatuses, hothers, hown⟩ :=
        @publishMany_accepted _ _ _ p copier cache now version updates force replaceEqual hcopies
          hmax hplain hnil haccepts
      rw [hget] at hstatuses hothers hown
      have hprevious : ∀ k, plain.existing p.copier e now k =
          (e.get? k).map (SnapshotValue.clone p.copier) := plain.existing_eq p.copier e now
      obtain ⟨hothers', hown'⟩ := legacyWrites_get? force replaceEqual hnd hprevious
      rw [hatomic, ResourcePublisher.publishManyLegacy, if_neg hnil, if_pos haccepts]
      refine ⟨⟨?_, fun k => ?_⟩, fun _ => rfl, nofun⟩
      · have hpublish := congrArg (List.map fun r : K × CacheWriteStatus =>
          (r.1, r.2.publishStatus)) hstatuses
        rw [List.map_map, List.map_map] at hpublish
        rw [Option.map_some, Option.map_some, List.map_map, List.map_map]
        refine congrArg some (hpublish.trans (List.map_congr_left fun v _ => ?_))
        have hkept : (e.get? v.key).map (SnapshotValue.clone p.copier) = e.get? v.key := by
          cases e.get? v.key with
          | none => rfl
          | some kept => rw [Option.map_some, clone_eq_self hcopies]
        simp only [Function.comp_apply, provisionalResult_status, hprevious, hkept]
      · by_cases hk : k ∈ (p.prepareCandidates now version
            (p.selectUpdates now updates).values).map SnapshotValue.key
        · obtain ⟨v, hv, rfl⟩ := List.mem_map.mp hk
          rw [hown v hv, hown' v hv, clone_eq_self hcopies, clone_eq_self hcopies']
        · rw [hothers k hk, hothers' k hk]

end

/-- One entry of rank 0 from time 5. -/
def oneEntry : CacheEntries ℕ ℕ :=
  CacheEntries.empty.put ⟨0, 7, "stream", 5, 5, 0, false, false, 0, 0, .empty⟩

def oneEntryCache : AsyncMemoryCache ℕ ℕ :=
  { (AsyncMemoryCache.new none AsyncMemoryCache.unlimited : AsyncMemoryCache ℕ ℕ) with entries := oneEntry }

/-- Two updates of the same key, the older one last. -/
def twoUpdates : List (ResourceUpdate ℕ ℕ) :=
  [⟨0, 8, "local", some 9, local_named⟩, ⟨0, 9, "local", some 4, local_named⟩]

theorem publications_agree_twoUpdates :
    SameOutcome
      (rankedPublisher.publishMany id oneEntryCache 10 1 twoUpdates false false)
      (rankedPublisher.publishManyLegacy .ofEntries oneEntry 10 1 twoUpdates false false) := by
  refine (publications_agree rankedPublisher id .ofEntries oneEntryCache oneEntry 10 1 twoUpdates
    false false (fun _ => rfl) (fun _ => rfl) rfl ?_ fun _ => rfl).1
  intro k v hv
  have hput : oneEntryCache.get? k = oneEntry.get? k := rfl
  rw [hput, oneEntry, CacheEntries.get?_put] at hv
  split at hv
  · rw [← Option.some.inj hv]
    rfl
  · cases hv

end Coalestra
