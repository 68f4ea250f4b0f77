import Coalestra.Cache.Expiry

/-! # Cache access over caches that do not validate dependencies

`orchestration/cache_access.py`: over a cache with single-key reads `CacheAccess.get_many` checks the
recorded dependency versions itself. It walks memoised reads, collects what it found invalid and
removes it. No entry changes while it runs. -/

namespace Coalestra
set_option autoImplicit false
set_option maxHeartbeats 250000

open Relation

/-! ## The plain cache -/

/-- A cache behind the `AsyncCache` protocol. It may drop what is past the window of the policy it is
asked with, and does not look at dependency versions. -/
structure PlainCache (K V : Type) [DecidableEq K] where
  entries : CacheEntries K V
  get : K → ℚ → FreshnessPolicy → CacheLookup K V
  get_absent : ∀ {k : K} {now : ℚ} {policy : FreshnessPolicy},
    entries.get? k = none → (get k now policy).value = none
  get_stored : ∀ {k : K} {v : SnapshotValue K V} {now : ℚ} {policy : FreshnessPolicy},
    entries.get? k = some v → (ageAt now v.observedAt : WithTop ℚ) ≤ policy.maxStaleSeconds →
      (get k now policy).value = some v

variable {K V : Type} [DecidableEq K]

/-- A dictionary of values that returns every value with its age. -/
def PlainCache.ofEntries (entries : CacheEntries K V) : PlainCache K V where
  entries := entries
  get := fun k now policy =>
    match entries.get? k with
    | none => .absent none
    | some v =>
      let age := ageAt now v.observedAt
      ⟨some v, decide ((age : WithTop ℚ) ≤ policy.ttlSeconds),
        decide ((age : WithTop ℚ) ≤ policy.maxStaleSeconds), some age⟩
  get_absent := by
    intro k now policy h
    rw [h]
    rfl
  get_stored := by
    intro k v now policy h _
    rw [h]

/-- Both caches hold the same entries. -/
theorem PlainCache.get_eq (cache : PlainCache K V) {now : ℚ} {policy : FreshnessPolicy} {k : K}
    (h : ∀ v, cache.entries.get? k = some v →
      (ageAt now v.observedAt : WithTop ℚ) ≤ policy.maxStaleSeconds) :
    (cache.get k now policy).value = cache.entries.get? k := by
  cases hget : cache.entries.get? k with
  | none => exact cache.get_absent hget
  | some v => exact cache.get_stored hget (h v hget)

namespace CacheAccess

/-! ## The validator -/

/-- `cached_values` and `invalid`. -/
structure ReadState (K V : Type) [DecidableEq K] where
  cachedValues : Dict K (Option (SnapshotValue K V))
  invalid : List K

def ReadState.addInvalid (s : ReadState K V) (k : K) : ReadState K V :=
  { s with invalid := if k ∈ s.invalid then s.invalid else s.invalid ++ [k] }

/-- `_read_unfiltered`. -/
def readUnfiltered (cache : PlainCache K V) (now : ℚ) (key : K) (s : ReadState K V) :
    Option (SnapshotValue K V) × ReadState K V :=
  match s.cachedValues.get? key with
  | some value => (value, s)
  | none =>
    let lookup := cache.get key now .allValues
    (lookup.value, { s with cachedValues := s.cachedValues.set key lookup.value })

/-- The loop of `_dependencies_current` over the recorded versions. -/
def eachDependency (cache : PlainCache K V) (now : ℚ)
    (current : SnapshotValue K V → ReadState K V → Option (Bool × ReadState K V)) :
    List (K × ℕ) → ReadState K V → Option (Bool × ReadState K V)
  | [], s => some (true, s)
  | (dependencyKey, expectedVersion) :: rest, s =>
    let read := readUnfiltered cache now dependencyKey s
    match read.1 with
    | none => some (false, read.2)
    | some dependency =>
      if dependency.version ≠ expectedVersion then some (false, read.2)
      else (current dependency read.2).bind fun checked =>
        if checked.1 then eachDependency cache now current rest checked.2
        else some (false, checked.2.addInvalid dependency.key)

/-- `_dependencies_current`; `none` when the fuel is spent. -/
def dependenciesCurrent (cache : PlainCache K V) (now : ℚ) :
    ℕ → List K → SnapshotValue K V → ReadState K V → Option (Bool × ReadState K V)
  | 0, _, _, _ => none
  | fuel + 1, visiting, value, s =>
    if value.dependencyVersions.entries = [] then some (true, s)
    else if value.key ∈ visiting then some (false, s.addInvalid value.key)
    else eachDependency cache now (dependenciesCurrent cache now fuel (value.key :: visiting))
      value.dependencyVersions.entries s

/-- `_filter_invalid_dependencies` up to the removal of what is invalid. -/
def filterInvalidDependencies (cache : PlainCache K V) (now : ℚ) (fuel : ℕ) :
    List (K × CacheLookup K V) → ReadState K V →
      Option (List (K × CacheLookup K V) × ReadState K V)
  | [], s => some ([], s)
  | (key, lookup) :: rest, s =>
    match lookup.value with
    | none => (filterInvalidDependencies cache now fuel rest s).map fun filtered =>
        ((key, lookup) :: filtered.1, filtered.2)
    | some value =>
      (dependenciesCurrent cache now fuel [] value s).bind fun checked =>
        (filterInvalidDependencies cache now fuel rest
          (if checked.1 then checked.2 else checked.2.addInvalid key)).map fun filtered =>
          ((key, if checked.1 then lookup else .absent lookup.ageSeconds) :: filtered.1,
            filtered.2)

/-- `get_many` over a cache without batch reads: the filtered lookups and the keys it removes. -/
def getMany (cache : PlainCache K V) (fuel : ℕ) (now : ℚ) (policies : K → FreshnessPolicy)
    (keys : List K) : Option (List (K × CacheLookup K V) × List K) :=
  let lookups := (Dict.fromKeys keys).map fun key => (key, cache.get key now (policies key))
  (filterInvalidDependencies cache now fuel lookups ⟨.empty, []⟩).map fun filtered =>
    (filtered.1, filtered.2.invalid)

/-! ## What the validator knows -/

/-- The memo holds what the cache holds; every key found invalid has an entry that is not current. -/
structure Sound (cache : PlainCache K V) (s : ReadState K V) : Prop where
  memo : ∀ k read, s.cachedValues.get? k = some read → read = cache.entries.get? k
  invalid : ∀ k ∈ s.invalid, ∃ v, cache.entries.get? k = some v ∧ ¬ cache.entries.Current v

section
variable {cache : PlainCache K V} {now : ℚ} {s : ReadState K V}

theorem sound_start : Sound cache ⟨.empty, []⟩ :=
  ⟨fun k read h => by simp at h, fun k h => by simp at h⟩

theorem Sound.addInvalid (h : Sound cache s) {k : K} {v : SnapshotValue K V}
    (hv : cache.entries.get? k = some v) (hnot : ¬ cache.entries.Current v) :
    Sound cache (s.addInvalid k) := by
  refine ⟨h.memo, fun j hj => ?_⟩
  rw [ReadState.addInvalid] at hj
  by_cases hk : k ∈ s.invalid
  · rw [if_pos hk] at hj
    exact h.invalid j hj
  · rw [if_neg hk, List.mem_append, List.mem_singleton] at hj
    rcases hj with hj | rfl
    · exact h.invalid j hj
    · exact ⟨v, hv, hnot⟩

theorem Sound.readUnfiltered (now : ℚ) (h : Sound cache s) (k : K) :
    (readUnfiltered cache now k s).1 = cache.entries.get? k ∧
      Sound cache (readUnfiltered cache now k s).2 := by
  unfold CacheAccess.readUnfiltered
  cases hmemo : s.cachedValues.get? k with
  | some read => exact ⟨h.memo k read hmemo, h⟩
  | none =>
    have hread : (cache.get k now .allValues).value = cache.entries.get? k :=
      cache.get_eq fun v _ => le_top
    refine ⟨hread, ⟨fun j read hj => ?_, h.invalid⟩⟩
    rw [Dict.get?_set] at hj
    by_cases hk : j = k
    · rw [if_pos hk, Option.some.injEq] at hj
      rw [← hj, hread, hk]
    · rw [if_neg hk] at hj
      exact h.memo j read hj

/-- A check that answers for every dependency lets the loop answer for all of them. -/
theorem Sound.eachDependency (now : ℚ)
    {current : SnapshotValue K V → ReadState K V → Option (Bool × ReadState K V)} :
    ∀ {deps : List (K × ℕ)} {s : ReadState K V}, Sound cache s →
      (∀ d ∈ deps, ∀ w, cache.entries.get? d.1 = some w → w.version = d.2 →
        ∀ s, Sound cache s → ∃ b t, current w s = some (b, t) ∧
          (b = true ↔ cache.entries.Current w) ∧ Sound cache t) →
      ∃ b t, eachDependency cache now current deps s = some (b, t) ∧
        (b = true ↔ ∀ d ∈ deps, ∃ w, cache.entries.get? d.1 = some w ∧ w.version = d.2 ∧
          cache.entries.Current w) ∧ Sound cache t
  | [], s, h, _ => ⟨true, s, rfl, by simp, h⟩
  | (key, version) :: rest, s, h, hcheck => by
      obtain ⟨hread, hsound⟩ := h.readUnfiltered now key
      rw [CacheAccess.eachDependency]
      simp only [hread]
      cases hget : cache.entries.get? key with
      | none => exact ⟨false, _, rfl, by simp [hget], hsound⟩
      | some w =>
        by_cases hver : w.version = version
        · obtain ⟨b, t, hb, hiff, ht⟩ :=
            hcheck (key, version) List.mem_cons_self w hget hver _ hsound
          simp only [hver, ne_eq, not_true_eq_false, if_false, hb, Option.bind_some]
          cases b with
          | false =>
            have hnot : ¬ cache.entries.Current w := by simpa using hiff
            have hkey : w.key = key := cache.entries.keyed hget
            refine ⟨false, _, rfl, ?_, ht.addInvalid (hkey ▸ hget) hnot⟩
            simp [hget, hnot]
          | true =>
            have hcur : cache.entries.Current w := by simpa using hiff
            obtain ⟨c, u, hc, hrest, hu⟩ :=
              Sound.eachDependency now ht fun d hd => hcheck d (List.mem_cons_of_mem _ hd)
            refine ⟨c, u, by rw [if_pos rfl]; exact hc, ?_, hu⟩
            rw [hrest]
            simp [hget, hver, hcur]
        · refine ⟨false, _, if_pos hver, ?_, hsound⟩
          simp [hget, hver]

/-- With fuel for a path through every entry the walk ends, accepts exactly the current values and
stays sound. -/
theorem Sound.dependenciesCurrent (now : ℚ) :
    ∀ (fuel : ℕ) (visiting : List K) {v : SnapshotValue K V} {s : ReadState K V},
      cache.entries.get? v.key = some v → visiting.Nodup →
      OnPath SnapshotValue.key cache.entries.recorded (fun w => cache.entries.get? w.key = some w)
        visiting v →
      cache.entries.size < fuel + visiting.length → Sound cache s →
      ∃ b t, dependenciesCurrent cache now fuel visiting v s = some (b, t) ∧
        (b = true ↔ cache.entries.Current v) ∧ Sound cache t
  | 0, visiting, v, s, _, hnodup, hpath, hfuel, _ => by
      have hle := hpath.length_le (AsyncMemoryCache.named_entries cache.entries) hnodup
      rw [AsyncMemoryCache.card_keys] at hle
      omega
  | fuel + 1, visiting, v, s, hv, hnodup, hpath, hfuel, h => by
      rw [CacheAccess.dependenciesCurrent]
      by_cases hnil : v.dependencyVersions.entries = []
      · have hcur : cache.entries.Current v := .intro (by simp [hnil]) (by simp [hnil])
        exact ⟨true, s, by rw [if_pos hnil], by simp [hcur], h⟩
      rw [if_neg hnil]
      by_cases hon : v.key ∈ visiting
      · have hnot : ¬ cache.entries.Current v := fun hcur =>
          hpath.not_settled (AsyncMemoryCache.named_entries cache.entries) hv hon
            (CacheEntries.current_iff_settled.mp hcur)
        exact ⟨false, _, by rw [if_pos hon], by simp [hnot], h.addInvalid hv hnot⟩
      rw [if_neg hon]
      have hchild : ∀ d ∈ v.dependencyVersions.entries, ∀ w, cache.entries.get? d.1 = some w →
          w.version = d.2 → ∀ s, Sound cache s →
          ∃ b t, CacheAccess.dependenciesCurrent cache now fuel (v.key :: visiting) w s =
              some (b, t) ∧ (b = true ↔ cache.entries.Current w) ∧ Sound cache t := by
        intro d hd w hw hver s hs
        have hneeds : Needs cache.entries.recorded v w :=
          CacheEntries.mem_recorded.mpr ⟨d, hd, hw, hver⟩
        have hnodup' : (v.key :: visiting).Nodup := List.nodup_cons.mpr ⟨hon, hnodup⟩
        have hlen : cache.entries.size < fuel + (v.key :: visiting).length := by
          rw [List.length_cons]
          omega
        have hstored : cache.entries.get? w.key = some w := by rwa [cache.entries.keyed hw]
        exact Sound.dependenciesCurrent now fuel _ hstored hnodup' (hpath.child hv hneeds) hlen hs
      obtain ⟨b, t, hb, hiff, ht⟩ := h.eachDependency now hchild
      refine ⟨b, t, hb, hiff.trans ⟨fun hall => .intro ?_ ?_, fun hcur d hd => ?_⟩, ht⟩
      · intro d hd
        obtain ⟨w, hw, hver, _⟩ := hall d hd
        exact ⟨w, hw, hver⟩
      · intro d hd w hw
        obtain ⟨x, hx, _, hcur⟩ := hall d hd
        rw [hw, Option.some.injEq] at hx
        exact hx ▸ hcur
      · obtain ⟨w, hw, hver⟩ := hcur.present d hd
        exact ⟨w, hw, hver, hcur.of_dependsOn ⟨d, hd, hw, hver⟩⟩

/-- The filter keeps exactly the values that are current. -/
theorem Sound.filterInvalidDependencies (now : ℚ) {fuel : ℕ} (hfuel : cache.entries.size < fuel) :
    ∀ {lookups : List (K × CacheLookup K V)} {s : ReadState K V},
      (∀ p ∈ lookups, p.2.value = cache.entries.get? p.1) → Sound cache s →
      ∃ filtered t, filterInvalidDependencies cache now fuel lookups s = some (filtered, t) ∧
        filtered.map Prod.fst = lookups.map Prod.fst ∧
        (∀ p ∈ filtered, ∀ v, p.2.value = some v ↔
          cache.entries.get? p.1 = some v ∧ cache.entries.Current v) ∧ Sound cache t
  | [], s, _, h => ⟨[], s, rfl, rfl, by simp, h⟩
  | (key, lookup) :: rest, s, hlookups, h => by
      have hlookup : lookup.value = cache.entries.get? key :=
        hlookups (key, lookup) List.mem_cons_self
      have hothers := fun p hp => hlookups p (List.mem_cons_of_mem (key, lookup) hp)
      rw [CacheAccess.filterInvalidDependencies]
      cases hvalue : lookup.value with
      | none =>
        obtain ⟨filtered, t, hrun, hkeys, hspec, ht⟩ :=
          Sound.filterInvalidDependencies now hfuel hothers h
        refine ⟨(key, lookup) :: filtered, t, by simp only [hrun, Option.map_some], ?_, ?_, ht⟩
        · rw [List.map_cons, List.map_cons, hkeys]
        · intro p hp v
          rcases List.mem_cons.mp hp with rfl | hp
          · rw [hvalue, ← hlookup, hvalue]
            simp
          · exact hspec p hp v
      | some value =>
        have hget : cache.entries.get? key = some value := by rw [← hlookup, hvalue]
        have hkey : value.key = key := cache.entries.keyed hget
        obtain ⟨b, u, hb, hiff, hu⟩ := Sound.dependenciesCurrent now fuel []
          (hkey ▸ hget) List.nodup_nil (by simp [OnPath]) hfuel h
        have hnext : Sound cache (if b then u else u.addInvalid key) := by
          cases b with
          | true => exact hu
          | false => exact hu.addInvalid hget (by simpa using hiff)
        obtain ⟨filtered, t, hrun, hkeys, hspec, ht⟩ :=
          Sound.filterInvalidDependencies now hfuel hothers hnext
        refine ⟨(key, if b then lookup else .absent lookup.ageSeconds) :: filtered, t,
          by simp only [hb, Option.bind_some, hrun, Option.map_some], ?_, ?_, ht⟩
        · rw [List.map_cons, List.map_cons, hkeys]
        · intro p hp v
          rcases List.mem_cons.mp hp with rfl | hp
          · cases b with
            | true =>
              have hcur : cache.entries.Current value := by simpa using hiff
              simp only [if_true, hvalue, hget, Option.some.injEq]
              exact ⟨fun e => ⟨e, e ▸ hcur⟩, And.left⟩
            | false =>
              have hnot : ¬ cache.entries.Current value := by simpa using hiff
              have hnone : ∀ w, cache.entries.get? key = some w → ¬ cache.entries.Current w := by
                intro w hw
                rw [hget, Option.some.injEq] at hw
                exact hw ▸ hnot
              constructor
              · intro hsome
                cases hsome
              · exact fun hsome => absurd hsome.2 (hnone v hsome.1)
          · exact hspec p hp v

/-- Over entries within their windows a batch read returns exactly the values that are current. -/
theorem getMany_returns {memory : AsyncMemoryCache K V} {policies : K → FreshnessPolicy}
    (hwindow : ∀ k v, memory.get? k = some v →
      (ageAt now v.observedAt : WithTop ℚ) ≤ (policies k).maxStaleSeconds) (keys : List K) (k : K)
    (v : SnapshotValue K V) :
    (∃ lookup, (k, lookup) ∈ (memory.getMany now policies keys).1 ∧ lookup.value = some v) ↔
      k ∈ keys ∧ memory.get? k = some v ∧ memory.entries.Current v := by
  have hnone : ∀ w, memory.get? w.key = some w → ¬ AsyncMemoryCache.PastWindow now policies w :=
    fun w hw => not_lt.mpr (hwindow w.key w hw)
  have hclosed : memory.ClosuresInWindow now policies := fun v w hv hw =>
    hnone w (hv.current.closure_get? (CacheEntries.Within.refl _) hw)
  obtain ⟨hanswer, _⟩ := AsyncMemoryCache.Reduced.getMany hclosed (Dict.fromKeys keys)
    (AsyncMemoryCache.Reduced.refl memory)
  have hkeys : (memory.getMany now policies keys).1.map Prod.fst = Dict.fromKeys keys :=
    AsyncMemoryCache.getManyLocked_keys now policies (Dict.fromKeys keys) memory
  constructor
  · rintro ⟨lookup, hmem, hv⟩
    obtain ⟨hget, hcur⟩ := AsyncMemoryCache.getManyLocked_current hv hmem
    have hk := List.mem_map_of_mem (f := Prod.fst) hmem
    rw [hkeys, Dict.mem_fromKeys] at hk
    exact ⟨hk, hget, hcur⟩
  · rintro ⟨hk, hget, hcur⟩
    rw [← Dict.mem_fromKeys, ← hkeys, List.mem_map] at hk
    obtain ⟨⟨j, lookup⟩, hmem, rfl⟩ := hk
    have hkey : v.key = j := memory.entries.keyed hget
    have hlive : memory.Live now policies v :=
      ⟨by rw [hkey]; exact hget, hcur, hnone v (by rw [hkey]; exact hget)⟩
    refine ⟨lookup, hmem, ?_⟩
    rcases hanswer j lookup hmem with ⟨w, hw, hkw, hvis⟩ | ⟨hmiss, _⟩
    · have hsame : w = v := by
        have hboth := hw.stored
        rw [hkw, ← hkey, hlive.stored, Option.some.injEq] at hboth
        exact hboth.symm
      rw [AsyncMemoryCache.visible, Prod.mk.injEq] at hvis
      rw [hvis.1, hsame]
    · exact absurd hkey (hmiss v hlive)

end

/-- What survives the walk of the builder over a cache that does not validate is what
`AsyncMemoryCache.get_many` returns over the same entries, and the walk removes only entries that
are not current. -/
theorem validators_agree (cache : PlainCache K V) (memory : AsyncMemoryCache K V)
    (hsame : ∀ k, memory.get? k = cache.entries.get? k) (now : ℚ) (policies : K → FreshnessPolicy)
    (hwindow : ∀ k v, cache.entries.get? k = some v →
      (ageAt now v.observedAt : WithTop ℚ) ≤ (policies k).maxStaleSeconds) (keys : List K)
    (fuel : ℕ) (hfuel : cache.entries.size < fuel) :
    ∃ lookups invalid, getMany cache fuel now policies keys = some (lookups, invalid) ∧
      lookups.map Prod.fst = (memory.getMany now policies keys).1.map Prod.fst ∧
      (∀ k v, (∃ lookup, (k, lookup) ∈ lookups ∧ lookup.value = some v) ↔
        ∃ lookup, (k, lookup) ∈ (memory.getMany now policies keys).1 ∧ lookup.value = some v) ∧
      ∀ k ∈ invalid, ∃ v, cache.entries.get? k = some v ∧ ¬ cache.entries.Current v := by
  have hcurrent : ∀ v, memory.entries.Current v ↔ cache.entries.Current v := by
    intro v
    constructor
    · exact CacheEntries.Current.of_within fun k w hw => by rwa [← hsame]
    · exact CacheEntries.Current.of_within fun k w hw => by rwa [← hsame k] at hw
  have hlookups : ∀ p ∈ (Dict.fromKeys keys).map fun key =>
      (key, cache.get key now (policies key)), p.2.value = cache.entries.get? p.1 := by
    intro p hp
    obtain ⟨k, _, rfl⟩ := List.mem_map.mp hp
    exact cache.get_eq (hwindow k)
  obtain ⟨filtered, t, hrun, hkeys, hspec, ht⟩ :=
    Sound.filterInvalidDependencies now hfuel hlookups sound_start
  have hfst : filtered.map Prod.fst = Dict.fromKeys keys := by
    rw [hkeys, List.map_map]
    exact List.map_id _
  refine ⟨filtered, t.invalid, by rw [getMany, hrun]; rfl, ?_, fun k v => ?_, ht.invalid⟩
  · rw [hfst]
    exact (AsyncMemoryCache.getManyLocked_keys now policies (Dict.fromKeys keys) memory).symm
  · rw [getMany_returns (fun k v h => hwindow k v (hsame k ▸ h)) keys k v, hsame, hcurrent]
    constructor
    · rintro ⟨lookup, hmem, hv⟩
      have hk := List.mem_map_of_mem (f := Prod.fst) hmem
      rw [hfst, Dict.mem_fromKeys] at hk
      exact ⟨hk, (hspec _ hmem v).mp hv⟩
    · rintro ⟨hk, hv⟩
      rw [← Dict.mem_fromKeys, ← hfst, List.mem_map] at hk
      obtain ⟨⟨j, lookup⟩, hmem, rfl⟩ := hk
      exact ⟨lookup, hmem, (hspec _ hmem v).mpr hv⟩

/-- A derived value over a plain one, and two values that record each other. -/
def circularEntries : CacheEntries ℕ ℕ :=
  let value (key version : ℕ) (recorded : Dict ℕ ℕ) : SnapshotValue ℕ ℕ :=
    ⟨key, key, "rest", 0, 0, 0, false, false, 0, version, recorded⟩
  (((CacheEntries.empty.put (value 0 1 .empty)).put (value 1 2 (Dict.empty.set 0 1))).put
    (value 2 3 (Dict.empty.set 3 4))).put (value 3 4 (Dict.empty.set 2 3))

theorem validators_agree_circular :
    ∃ lookups invalid,
      getMany (.ofEntries circularEntries) 5 0 (fun _ => .allValues) [1, 2] =
        some (lookups, invalid) ∧
      (∀ k v, (∃ lookup, (k, lookup) ∈ lookups ∧ lookup.value = some v) ↔
        ∃ lookup, (k, lookup) ∈ ((⟨none, circularEntries, 0, 0, 0, 0, 0, 0, 0, 0, by simp⟩ :
          AsyncMemoryCache ℕ ℕ).getMany 0 (fun _ => .allValues) [1, 2]).1 ∧
          lookup.value = some v) ∧
      (getMany (.ofEntries circularEntries) 5 0 (fun _ => .allValues) [1, 2]).map
        (fun answer => (answer.1.map fun read => (read.1, read.2.value.isSome), answer.2)) =
          some ([(1, true), (2, false)], [2, 3]) := by
  obtain ⟨lookups, invalid, hrun, _, hvalues, _⟩ :=
    validators_agree (.ofEntries circularEntries)
      ⟨none, circularEntries, 0, 0, 0, 0, 0, 0, 0, 0, by simp⟩ (fun _ => rfl) 0
      (fun _ => .allValues) (fun _ _ _ => le_top) [1, 2] 5 (by decide +kernel)
  exact ⟨lookups, invalid, hrun, hvalues, by decide +kernel⟩

end CacheAccess
end Coalestra
