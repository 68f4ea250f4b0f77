import Coalestra.Cache.Legacy

/-! # Batch writes keep the maximum

`cache/memory.py`: one `set_many_if_newer` call over a cache without a limit. The batch is reduced
to one candidate for every key by `_candidate_precedes`, and that candidate is compared with the
entry by `_write_status`. The two comparisons break ties differently; together they keep the
greatest stamp, whatever the order of the batch. -/

namespace Coalestra
set_option autoImplicit false
set_option maxHeartbeats 250000

namespace AsyncMemoryCache

section
variable {K V : Type} [DecidableEq K]

/-! ## The selected candidates -/

omit [DecidableEq K] in
theorem candidatePrecedes_iff {current candidate : SnapshotValue K V} :
    candidatePrecedes current candidate = true ↔ stamp current ≤ stamp candidate := by
  rw [stamp, stamp, Prod.Lex.toLex_le_toLex, candidatePrecedes]
  by_cases h : candidate.authorityRank = current.authorityRank
  · simp [h]
  · have h' : ¬ current.authorityRank = candidate.authorityRank := fun e => h e.symm
    simp [h, h']

/-- A candidate for `k` whose stamp no other candidate for `k` exceeds. -/
structure LatestOf (values : List (SnapshotValue K V)) (k : K) (v : SnapshotValue K V) : Prop where
  mem : v ∈ values
  key : v.key = k
  latest : ∀ w ∈ values, w.key = k → stamp w ≤ stamp v

/-- One turn of `_select_candidates`. -/
def selectOne (selected : CacheEntries K V) (value : SnapshotValue K V) : CacheEntries K V :=
  match selected.get? value.key with
  | none => selected.put value
  | some current => if candidatePrecedes current value then selected.put value else selected

/-- Every key of the values seen so far has its latest candidate. -/
structure Selects (seen : List (SnapshotValue K V)) (selected : CacheEntries K V) : Prop where
  latest : ∀ k v, selected.get? k = some v → LatestOf seen k v
  covers : ∀ v ∈ seen, ∃ w, selected.get? v.key = some w

/-- The new value takes its key's place when it is at least as late. -/
theorem Selects.put {seen : List (SnapshotValue K V)} {selected : CacheEntries K V}
    (h : Selects seen selected) {value : SnapshotValue K V}
    (hle : ∀ current, selected.get? value.key = some current → stamp current ≤ stamp value) :
    Selects (seen ++ [value]) (selected.put value) := by
  refine ⟨fun k v hv => ?_, fun v hv => ?_⟩
  · rw [CacheEntries.get?_put] at hv
    by_cases hk : k = value.key
    · rw [if_pos hk, Option.some.injEq] at hv
      subst hv
      refine ⟨by simp, hk.symm, fun w hw hwk => ?_⟩
      rcases List.mem_append.mp hw with hw | hw
      · obtain ⟨current, hcurrent⟩ := h.covers w hw
        have hlate := (h.latest _ _ hcurrent).latest w hw rfl
        rw [hwk, hk] at hcurrent
        exact hlate.trans (hle current hcurrent)
      · rw [List.mem_singleton.mp hw]
    · rw [if_neg hk] at hv
      obtain ⟨hmem, hkey, hlatest⟩ := h.latest k v hv
      refine ⟨List.mem_append_left _ hmem, hkey, fun w hw hwk => ?_⟩
      rcases List.mem_append.mp hw with hw | hw
      · exact hlatest w hw hwk
      · rw [List.mem_singleton.mp hw] at hwk
        exact absurd hwk.symm hk
  · rw [CacheEntries.get?_put]
    split
    · exact ⟨value, rfl⟩
    · rename_i hk
      rcases List.mem_append.mp hv with hv | hv
      · exact h.covers v hv
      · rw [List.mem_singleton.mp hv] at hk
        exact absurd rfl hk

theorem Selects.one {seen : List (SnapshotValue K V)} {selected : CacheEntries K V}
    (h : Selects seen selected) (value : SnapshotValue K V) :
    Selects (seen ++ [value]) (selectOne selected value) := by
  unfold selectOne
  cases hget : selected.get? value.key with
  | none => exact h.put fun current hcurrent => by rw [hget] at hcurrent; cases hcurrent
  | some current =>
    simp only
    by_cases hprecedes : candidatePrecedes current value = true
    · rw [if_pos hprecedes]
      refine h.put fun current' hcurrent' => ?_
      rw [hget, Option.some.injEq] at hcurrent'
      rw [← hcurrent']
      exact candidatePrecedes_iff.mp hprecedes
    · rw [if_neg hprecedes]
      rw [candidatePrecedes_iff, not_le] at hprecedes
      refine ⟨fun k v hv => ?_, fun v hv => ?_⟩
      · obtain ⟨hmem, hkey, hlatest⟩ := h.latest k v hv
        refine ⟨List.mem_append_left _ hmem, hkey, fun w hw hwk => ?_⟩
        rcases List.mem_append.mp hw with hw | hw
        · exact hlatest w hw hwk
        · rw [List.mem_singleton.mp hw] at hwk ⊢
          rw [← hwk, hget, Option.some.injEq] at hv
          rw [← hv]
          exact hprecedes.le
      · rcases List.mem_append.mp hv with hv | hv
        · exact h.covers v hv
        · rw [List.mem_singleton.mp hv]
          exact ⟨current, hget⟩

/-- `_select_candidates` keeps the latest candidate of every key. -/
theorem selects_selectCandidates (values : List (SnapshotValue K V)) :
    Selects values (selectCandidates values) := by
  have hfold : ∀ (rest seen : List (SnapshotValue K V)) (e : CacheEntries K V),
      Selects seen e → Selects (seen ++ rest) (rest.foldl selectOne e) := by
    intro rest
    induction rest with
    | nil => exact fun seen e h => by rwa [List.append_nil]
    | cons value rest ih =>
      intro seen e h
      have hone := ih (seen ++ [value]) (selectOne e value) (h.one value)
      rwa [List.append_assoc, List.singleton_append] at hone
  have hempty : Selects ([] : List (SnapshotValue K V)) .empty := by
    refine ⟨fun k v hv => ?_, fun v hv => absurd hv List.not_mem_nil⟩
    rw [CacheEntries.get?_empty] at hv
    cases hv
  exact hfold values [] .empty hempty

theorem mem_candidates {values : List (SnapshotValue K V)} {k : K} {v : SnapshotValue K V}
    (h : (selectCandidates values).get? k = some v) :
    v ∈ (selectCandidates values).dict.values := by
  refine CacheEntries.mem_values.mpr ?_
  rwa [((selects_selectCandidates values).latest k v h).key]

theorem candidates_keys {values : List (SnapshotValue K V)} {k : K} :
    k ∈ (selectCandidates values).dict.values.map SnapshotValue.key ↔
      k ∈ values.map SnapshotValue.key := by
  have h := selects_selectCandidates values
  rw [CacheEntries.map_key_values, CacheEntries.mem_keys, List.mem_map]
  constructor
  · rintro ⟨v, hv⟩
    exact ⟨v, (h.latest k v hv).mem, (h.latest k v hv).key⟩
  · rintro ⟨v, hv, rfl⟩
    exact h.covers v hv

/-- The call sees nothing of the batch but the selected candidates. -/
theorem setManyIfNewer_selected (copier : V → V) (c : AsyncMemoryCache K V)
    (values : List (SnapshotValue K V)) (force replaceEqual : Bool) :
    c.setManyIfNewer copier (selectCandidates values).dict.values force replaceEqual =
      c.setManyIfNewer copier values force replaceEqual := by
  have hnd : ((selectCandidates values).dict.values.map SnapshotValue.key).Nodup := by
    rw [CacheEntries.map_key_values]
    exact (selectCandidates values).dict.nodup
  rw [setManyIfNewer, selectCandidates_values hnd]
  rfl

/-! ## The decision against the entry -/

omit [DecidableEq K] in
/-- An unforced write is decided by the two stamps and the rule for equal ones. -/
theorem stored_iff {p v : SnapshotValue K V} {replaceEqual : Bool} :
    writeStatus (some p) v false replaceEqual = .stored ↔
      stamp p < stamp v ∨ (stamp p = stamp v ∧ replaceEqual = true) := by
  constructor
  · intro h
    rcases (stamp_le_of_stored h).lt_or_eq with hlt | heq
    · exact .inl hlt
    · refine .inr ⟨heq, ?_⟩
      by_contra hne
      rw [Bool.not_eq_true] at hne
      rw [hne] at h
      exact absurd heq (stamp_lt_of_stored h).ne
  · rw [stamp, stamp, Prod.Lex.toLex_lt_toLex, toLex_inj, Prod.mk.injEq]
    rintro ((hrank | ⟨hrank, htime⟩) | ⟨⟨hrank, htime⟩, rfl⟩)
    · simp [writeStatus, hrank, not_lt.mpr hrank.le]
    · simp only at hrank htime
      simp [writeStatus, hrank, not_lt.mpr htime.le, htime.ne']
    · simp [writeStatus, hrank, htime]

omit [DecidableEq K] in
theorem writeStatus_congr {v v' : SnapshotValue K V} (h : stamp v = stamp v')
    (previous : Option (SnapshotValue K V)) (force replaceEqual : Bool) :
    writeStatus previous v force replaceEqual = writeStatus previous v' force replaceEqual := by
  rw [stamp, stamp, toLex_inj, Prod.mk.injEq] at h
  unfold writeStatus
  rw [h.1, h.2]

/-- The stamps that compete for `k`: the entry's and those of the candidates. -/
def competing (c : AsyncMemoryCache K V) (values : List (SnapshotValue K V)) (k : K) :
    Set (ℤ ×ₗ ℚ) :=
  {s | (∃ p, c.get? k = some p ∧ stamp p = s) ∨ ∃ v ∈ values, v.key = k ∧ stamp v = s}

/-- What an unforced call leaves under the key of its latest candidate. -/
def keptEntry (copier : V → V) (previous : Option (SnapshotValue K V)) (v : SnapshotValue K V)
    (replaceEqual : Bool) : Option (SnapshotValue K V) :=
  if writeStatus previous v false replaceEqual = .stored then some (v.clone copier) else previous

theorem keptEntry_greatest (copier : V → V) {c : AsyncMemoryCache K V}
    {values : List (SnapshotValue K V)} {k : K} {v : SnapshotValue K V} (h : LatestOf values k v)
    (replaceEqual : Bool) :
    ∃ w, keptEntry copier (c.get? k) v replaceEqual = some w ∧
      IsGreatest (c.competing values k) (stamp w) := by
  have hlatest : ∀ s, (∃ u ∈ values, u.key = k ∧ stamp u = s) → s ≤ stamp v := by
    rintro s ⟨u, hu, huk, rfl⟩
    exact h.latest u hu huk
  have hself : stamp v ∈ c.competing values k := .inr ⟨v, h.mem, h.key, rfl⟩
  unfold keptEntry
  cases hget : c.get? k with
  | none =>
    refine ⟨v.clone copier, rfl, hself, ?_⟩
    rintro s (⟨p, hp, rfl⟩ | hs)
    · rw [hget] at hp
      cases hp
    · exact hlatest s hs
  | some p =>
    have hentry : ∀ q, c.get? k = some q → q = p := by
      intro q hq
      rw [hget, Option.some.injEq] at hq
      exact hq.symm
    by_cases hstored : writeStatus (some p) v false replaceEqual = .stored
    · rw [if_pos hstored]
      refine ⟨v.clone copier, rfl, hself, ?_⟩
      rintro s (⟨q, hq, rfl⟩ | hs)
      · rw [hentry q hq]
        exact stamp_le_of_stored hstored
      · exact hlatest s hs
    · rw [if_neg hstored]
      rw [stored_iff, not_or, not_lt] at hstored
      refine ⟨p, rfl, .inl ⟨p, hget, rfl⟩, ?_⟩
      rintro s (⟨q, hq, rfl⟩ | hs)
      · rw [hentry q hq]
      · exact (hlatest s hs).trans hstored.1

/-! ## The call -/

/-- What the call leaves, key by key. -/
theorem setManyIfNewer_entries (copier : V → V) {c : AsyncMemoryCache K V}
    (hlimit : c.maxEntries = none) (values : List (SnapshotValue K V)) (replaceEqual : Bool) :
    ∃ results d, c.setManyIfNewer copier values false replaceEqual = some (results, d) ∧
      (∀ k, k ∉ values.map SnapshotValue.key → d.get? k = c.get? k) ∧
      ∀ k ∈ values.map SnapshotValue.key, ∃ v, LatestOf values k v ∧
        d.get? k = keptEntry copier (c.get? k) v replaceEqual := by
  have hnd : ((selectCandidates values).dict.values.map SnapshotValue.key).Nodup := by
    rw [CacheEntries.map_key_values]
    exact (selectCandidates values).dict.nodup
  obtain ⟨results, d, hcall, _, hothers, hown⟩ :=
    setManyIfNewer_alone copier hlimit hnd false replaceEqual
  rw [setManyIfNewer_selected] at hcall
  refine ⟨results, d, hcall, fun k hk => ?_, fun k hk => ?_⟩
  · exact hothers k fun hmem => hk (candidates_keys.mp hmem)
  · rw [← candidates_keys, CacheEntries.map_key_values, CacheEntries.mem_keys] at hk
    obtain ⟨v, hv⟩ := hk
    have hlatest := (selects_selectCandidates values).latest k v hv
    have hentry := hown v (mem_candidates hv)
    rw [hlatest.key] at hentry
    exact ⟨v, hlatest, hentry⟩

/-- An unforced batch write leaves the greatest stamp under every key of the batch and nothing else
changed. In another order of the batch it leaves the same entries, but for the choice among
candidates of equal stamps. -/
theorem batch_write_keeps_maximum (copier : V → V) (c : AsyncMemoryCache K V)
    (hlimit : c.maxEntries = none) (values : List (SnapshotValue K V)) (replaceEqual : Bool) :
    ∃ results d, c.setManyIfNewer copier values false replaceEqual = some (results, d) ∧
      (∀ k ∈ values.map SnapshotValue.key, ∃ w, d.get? k = some w ∧
        IsGreatest (c.competing values k) (stamp w)) ∧
      (∀ k, k ∉ values.map SnapshotValue.key → d.get? k = c.get? k) ∧
      ∀ reordered, values.Perm reordered → ∃ results' d',
        c.setManyIfNewer copier reordered false replaceEqual = some (results', d') ∧
        ∀ k, d'.get? k = d.get? k ∨ ∃ v ∈ values, ∃ v' ∈ values, v.key = k ∧ v'.key = k ∧
          stamp v = stamp v' ∧ d.get? k = some (v.clone copier) ∧
          d'.get? k = some (v'.clone copier) := by
  obtain ⟨results, d, hcall, hothers, hown⟩ :=
    setManyIfNewer_entries copier hlimit values replaceEqual
  refine ⟨results, d, hcall, fun k hk => ?_, hothers, fun reordered hperm => ?_⟩
  · obtain ⟨v, hv, hentry⟩ := hown k hk
    rw [hentry]
    exact keptEntry_greatest copier hv replaceEqual
  · obtain ⟨results', d', hcall', hothers', hown'⟩ :=
      setManyIfNewer_entries copier hlimit reordered replaceEqual
    refine ⟨results', d', hcall', fun k => ?_⟩
    have hkeys : k ∈ values.map SnapshotValue.key ↔ k ∈ reordered.map SnapshotValue.key :=
      (hperm.map SnapshotValue.key).mem_iff
    by_cases hk : k ∈ values.map SnapshotValue.key
    · obtain ⟨v, hv, hentry⟩ := hown k hk
      obtain ⟨v', hv', hentry'⟩ := hown' k (hkeys.mp hk)
      have hmem' : v' ∈ values := hperm.mem_iff.mpr hv'.mem
      -- Both orders select a candidate of the greatest stamp, so both decide alike.
      have hstamp : stamp v = stamp v' :=
        le_antisymm (hv'.latest v (hperm.mem_iff.mp hv.mem) hv.key) (hv.latest v' hmem' hv'.key)
      rw [keptEntry, writeStatus_congr hstamp] at hentry
      rw [keptEntry] at hentry'
      by_cases hstored : writeStatus (c.get? k) v' false replaceEqual = .stored
      · rw [if_pos hstored] at hentry hentry'
        exact .inr ⟨v, hv.mem, v', hmem', hv.key, hv'.key, hstamp, hentry, hentry'⟩
      · rw [if_neg hstored] at hentry hentry'
        exact .inl (hentry'.trans hentry.symm)
    · exact .inl ((hothers' k fun h => hk (hkeys.mpr h)).trans (hothers k hk).symm)

end

/-! ## Two observations of one time -/

def tiedValue (value : ℕ) : SnapshotValue ℕ ℕ :=
  ⟨1, value, "a", 5, 5, 0, false, false, 0, value, .empty⟩

/-- Of two candidates of one stamp the later in the batch is kept. -/
theorem batch_write_keeps_maximum_tied :
    ∃ results d, (new none nofun : AsyncMemoryCache ℕ ℕ).setManyIfNewer id
        [tiedValue 7, tiedValue 8] false false = some (results, d) ∧
      (∃ w, d.get? 1 = some w ∧
        IsGreatest ((new none nofun).competing [tiedValue 7, tiedValue 8] 1) (stamp w)) ∧
      ∃ results' d', (new none nofun : AsyncMemoryCache ℕ ℕ).setManyIfNewer id
        [tiedValue 8, tiedValue 7] false false = some (results', d') := by
  obtain ⟨results, d, hcall, hown, _, hperm⟩ :=
    batch_write_keeps_maximum id (new none nofun : AsyncMemoryCache ℕ ℕ) rfl
      [tiedValue 7, tiedValue 8] false
  obtain ⟨results', d', hcall', _⟩ := hperm [tiedValue 8, tiedValue 7] (List.Perm.swap _ _ [])
  exact ⟨results, d, hcall, hown 1 (by decide), results', d', hcall'⟩

end AsyncMemoryCache
end Coalestra
