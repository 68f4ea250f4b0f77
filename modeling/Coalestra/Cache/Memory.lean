import Mathlib.Data.Prod.Lex
import Coalestra.Core.Models

/-! # The memory cache under its lock

`cache/memory.py`: every critical section of `AsyncMemoryCache` as a pure function of the cache.
The entry map carries the fact that a value is stored under its own key. Counters follow the
source; `maxEntries` carries the check of the constructor. -/

namespace Coalestra
set_option autoImplicit false
set_option maxHeartbeats 250000

/-! ## Entries -/

/-- The LRU entry map: every value is stored under its own key. -/
structure CacheEntries (K V : Type) [DecidableEq K] where
  dict : Dict K (SnapshotValue K V)
  keyed : ∀ {k : K} {v : SnapshotValue K V}, dict.get? k = some v → v.key = k

namespace CacheEntries
variable {K V : Type} [DecidableEq K]

def empty : CacheEntries K V := ⟨Dict.empty, by simp⟩

def get? (e : CacheEntries K V) (k : K) : Option (SnapshotValue K V) := e.dict.get? k

def size (e : CacheEntries K V) : ℕ := e.dict.size

def touch (e : CacheEntries K V) (k : K) : CacheEntries K V :=
  ⟨e.dict.moveToEnd k, by
    intro j v h
    rw [Dict.get?_moveToEnd] at h
    exact e.keyed h⟩

/-- The entries whose value satisfies `p`. -/
def keep (e : CacheEntries K V) (p : K → Bool) : CacheEntries K V :=
  ⟨e.dict.filter p, by
    intro k v h
    rw [Dict.get?_filter] at h
    by_cases hp : p k = true
    · rw [if_pos hp] at h
      exact e.keyed h
    · simp [hp] at h⟩

def pop (e : CacheEntries K V) (k : K) : CacheEntries K V := e.keep fun j => decide (j ≠ k)

/-- `popitem(last=False)`. -/
def popOldest (e : CacheEntries K V) : CacheEntries K V :=
  ⟨e.dict.popFirst, by
    intro k v h
    rw [← Dict.mem_entries] at h
    exact e.keyed (Dict.mem_entries.mp (List.mem_of_mem_tail h))⟩

theorem set_keyed (e : CacheEntries K V) (v : SnapshotValue K V) {k : K} {w : SnapshotValue K V}
    (h : (e.dict.set v.key v).get? k = some w) : w.key = k := by
  rw [Dict.get?_set] at h
  by_cases hk : k = v.key
  · simp only [hk, if_true, Option.some.injEq] at h
    rw [← h, hk]
  · rw [if_neg hk] at h
    exact e.keyed h

/-- `self._entries[value.key] = value`, the place of an old key kept. -/
def put (e : CacheEntries K V) (v : SnapshotValue K V) : CacheEntries K V :=
  ⟨e.dict.set v.key v, e.set_keyed v⟩

/-- `self._entries[value.key] = value` followed by `move_to_end`. -/
def store (e : CacheEntries K V) (v : SnapshotValue K V) : CacheEntries K V :=
  (e.put v).touch v.key

@[simp] theorem get?_empty (k : K) : (empty : CacheEntries K V).get? k = none := rfl

@[simp] theorem get?_touch (e : CacheEntries K V) (j k : K) : (e.touch j).get? k = e.get? k :=
  Dict.get?_moveToEnd _ _ _

theorem get?_put (e : CacheEntries K V) (v : SnapshotValue K V) (k : K) :
    (e.put v).get? k = if k = v.key then some v else e.get? k := Dict.get?_set _ _ _ _

theorem get?_store (e : CacheEntries K V) (v : SnapshotValue K V) (k : K) :
    (e.store v).get? k = if k = v.key then some v else e.get? k := by
  rw [store, get?_touch, get?_put]

theorem get?_keep (e : CacheEntries K V) (p : K → Bool) (k : K) :
    (e.keep p).get? k = if p k then e.get? k else none := Dict.get?_filter _ _ _

theorem get?_pop (e : CacheEntries K V) (j k : K) :
    (e.pop j).get? k = if k = j then none else e.get? k := by
  rw [pop, get?_keep]
  by_cases h : k = j <;> simp [h]

theorem get?_popOldest {e : CacheEntries K V} {k : K} {v : SnapshotValue K V}
    (h : e.popOldest.get? k = some v) : e.get? k = some v := by
  rw [get?, ← Dict.mem_entries] at h
  exact Dict.mem_entries.mp (List.mem_of_mem_tail h)

theorem mem_values {e : CacheEntries K V} {v : SnapshotValue K V} :
    v ∈ e.dict.values ↔ e.get? v.key = some v := by
  rw [get?, ← Dict.mem_entries, Dict.values, List.mem_map]
  constructor
  · rintro ⟨⟨k, w⟩, hm, rfl⟩
    have hk : w.key = k := e.keyed (Dict.mem_entries.mp hm)
    rwa [hk]
  · exact fun h => ⟨_, h, rfl⟩

theorem map_key_values (e : CacheEntries K V) :
    e.dict.values.map SnapshotValue.key = e.dict.keys := by
  rw [Dict.values, Dict.keys, List.map_map]
  exact List.map_congr_left fun p hp => e.keyed (Dict.mem_entries.mp hp)

/-- The entries after are among the entries before. -/
def Within (after before : CacheEntries K V) : Prop :=
  ∀ k v, after.get? k = some v → before.get? k = some v

theorem Within.refl (e : CacheEntries K V) : e.Within e := fun _ _ h => h

theorem Within.trans {a b c : CacheEntries K V} (h : a.Within b) (h' : b.Within c) : a.Within c :=
  fun k v hk => h' k v (h k v hk)

theorem keep_within (e : CacheEntries K V) (p : K → Bool) : (e.keep p).Within e := by
  intro k v h
  rw [get?_keep] at h
  by_cases hp : p k = true
  · rwa [if_pos hp] at h
  · simp [hp] at h

theorem pop_within (e : CacheEntries K V) (k : K) : (e.pop k).Within e := keep_within _ _

theorem touch_within (e : CacheEntries K V) (k : K) : (e.touch k).Within e := by
  intro j v h
  rwa [get?_touch] at h

theorem popOldest_within (e : CacheEntries K V) : e.popOldest.Within e :=
  fun _ _ h => get?_popOldest h

/-- `_enforce_limit_locked`, one `popitem` per surplus entry. -/
def popSurplus : ℕ → CacheEntries K V → CacheEntries K V
  | 0, e => e
  | n + 1, e => popSurplus n e.popOldest

theorem popSurplus_within : ∀ (n : ℕ) (e : CacheEntries K V), (popSurplus n e).Within e
  | 0, e => Within.refl e
  | n + 1, e => (popSurplus_within n _).trans (popOldest_within e)

/-! The keys of the entries, oldest first. -/

theorem size_eq_length_keys (e : CacheEntries K V) :
    e.size = e.dict.keys.length := by
  rw [Dict.keys, List.length_map]
  rfl

theorem mem_keys {e : CacheEntries K V} {k : K} : k ∈ e.dict.keys ↔ ∃ v, e.get? k = some v :=
  Dict.mem_keys

theorem keys_keep (e : CacheEntries K V) (p : K → Bool) :
    (e.keep p).dict.keys = e.dict.keys.filter p := Dict.keys_filter _ _

theorem keys_touch {e : CacheEntries K V} {k : K} (h : k ∈ e.dict.keys) :
    (e.touch k).dict.keys = (e.dict.keys.filter fun j => decide (j ≠ k)) ++ [k] :=
  Dict.keys_moveToEnd h

/-- The stored key goes behind the others, whether it is new or not. -/
theorem keys_store (e : CacheEntries K V) (v : SnapshotValue K V) :
    (e.store v).dict.keys = (e.dict.keys.filter fun j => decide (j ≠ v.key)) ++ [v.key] := by
  have hmem : v.key ∈ (e.put v).dict.keys := mem_keys.mpr ⟨v, by rw [get?_put, if_pos rfl]⟩
  rw [store, keys_touch hmem]
  congr 1
  by_cases h : v.key ∈ e.dict.keys
  · rw [put, Dict.keys_set_of_mem h]
  · rw [put, Dict.keys_set_new h, List.filter_append]
    simp

theorem keys_popOldest (e : CacheEntries K V) : e.popOldest.dict.keys = e.dict.keys.tail :=
  List.map_tail

theorem keys_popSurplus : ∀ (n : ℕ) (e : CacheEntries K V),
    (popSurplus n e).dict.keys = e.dict.keys.drop n
  | 0, _ => rfl
  | n + 1, e => by
      rw [popSurplus, keys_popSurplus n, keys_popOldest, List.drop_tail]

end CacheEntries

/-! ## The cache -/

/-- `AsyncMemoryCache`: the entries, the limit and the operational counters. -/
structure AsyncMemoryCache (K V : Type) [DecidableEq K] where
  maxEntries : Option ℕ
  entries : CacheEntries K V
  hits : ℕ
  misses : ℕ
  freshHits : ℕ
  staleHits : ℕ
  sets : ℕ
  invalidations : ℕ
  evictions : ℕ
  expirations : ℕ
  maxEntries_pos : ∀ n, maxEntries = some n → 1 ≤ n

namespace AsyncMemoryCache
variable {K V : Type} [DecidableEq K]

/-- The cache a constructor call returns. -/
def new (maxEntries : Option ℕ) (h : ∀ n, maxEntries = some n → 1 ≤ n) : AsyncMemoryCache K V :=
  ⟨maxEntries, .empty, 0, 0, 0, 0, 0, 0, 0, 0, h⟩

theorem unlimited : ∀ n, (none : Option ℕ) = some n → 1 ≤ n := by
  intro n hn
  cases hn

def get? (c : AsyncMemoryCache K V) (k : K) : Option (SnapshotValue K V) := c.entries.get? k

/-- `_dependencies_current_locked`. The visited keys are pairwise different keys of entries (and
the key of the first value), so one unit of fuel per entry and one more reach every branch. -/
def dependenciesCurrentLocked (e : CacheEntries K V) : ℕ → List K → SnapshotValue K V → Bool
  | 0, _, _ => false
  | fuel + 1, visiting, value =>
    if value.dependencyVersions.entries = [] then true
    else if value.key ∈ visiting then false
    else value.dependencyVersions.entries.all fun dependency =>
      match e.get? dependency.1 with
      | none => false
      | some entry =>
        if entry.version ≠ dependency.2 then false
        else dependenciesCurrentLocked e fuel (value.key :: visiting) entry

def dependenciesCurrent (c : AsyncMemoryCache K V) (value : SnapshotValue K V) : Bool :=
  dependenciesCurrentLocked c.entries (c.entries.size + 2) [] value

/-- One turn of the loop of `get_many`. -/
def lookupLocked (c : AsyncMemoryCache K V) (now : ℚ) (policy : FreshnessPolicy) (key : K) :
    CacheLookup K V × AsyncMemoryCache K V :=
  match c.get? key with
  | none => (.absent none, { c with misses := c.misses + 1 })
  | some value =>
    let age := ageAt now value.observedAt
    if c.dependenciesCurrent value = false then
      (.absent (some age), { c with
        entries := c.entries.pop key
        misses := c.misses + 1
        invalidations := c.invalidations + 1 })
    else if policy.maxStaleSeconds < (age : WithTop ℚ) then
      (.absent (some age), { c with
        entries := c.entries.pop key
        misses := c.misses + 1
        expirations := c.expirations + 1 })
    else if (age : WithTop ℚ) ≤ policy.ttlSeconds then
      (⟨some value, true, true, some age⟩, { c with
        entries := c.entries.touch key
        hits := c.hits + 1
        freshHits := c.freshHits + 1 })
    else
      (⟨some value, false, true, some age⟩, { c with
        entries := c.entries.touch key
        hits := c.hits + 1
        staleHits := c.staleHits + 1 })

/-- The critical section of `get_many`, over keys without repetition. -/
def getManyLocked (now : ℚ) (policies : K → FreshnessPolicy) :
    List K → AsyncMemoryCache K V → List (K × CacheLookup K V) × AsyncMemoryCache K V
  | [], c => ([], c)
  | key :: keys, c =>
    let first := c.lookupLocked now (policies key) key
    let rest := getManyLocked now policies keys first.2
    ((key, first.1) :: rest.1, rest.2)

def getMany (c : AsyncMemoryCache K V) (now : ℚ) (policies : K → FreshnessPolicy) (keys : List K) :
    List (K × CacheLookup K V) × AsyncMemoryCache K V :=
  getManyLocked now policies (Dict.fromKeys keys) c

/-- What one lookup may answer, and that it changes nothing but the entry order, the counters and
the presence of the key it looked up. -/
theorem lookupLocked_cases (c : AsyncMemoryCache K V) (now : ℚ) (policy : FreshnessPolicy)
    (key : K) :
    ((c.lookupLocked now policy key).2.entries.Within c.entries) ∧
    (((c.lookupLocked now policy key).1.value = none ∧
        (c.lookupLocked now policy key).1.fresh = false ∧
        (c.lookupLocked now policy key).1.usableStale = false) ∨
      ∃ value, c.get? key = some value ∧
        (c.lookupLocked now policy key).1 =
          ⟨some value, decide ((ageAt now value.observedAt : WithTop ℚ) ≤ policy.ttlSeconds), true,
            some (ageAt now value.observedAt)⟩ ∧
        (ageAt now value.observedAt : WithTop ℚ) ≤ policy.maxStaleSeconds ∧
        c.dependenciesCurrent value = true ∧
        ∀ k, (c.lookupLocked now policy key).2.get? k = c.get? k) := by
  unfold lookupLocked
  cases hget : c.get? key with
  | none => exact ⟨CacheEntries.Within.refl _, .inl ⟨rfl, rfl, rfl⟩⟩
  | some value =>
    simp only
    by_cases hdep : c.dependenciesCurrent value = false
    · rw [if_pos hdep]
      exact ⟨CacheEntries.pop_within _ _, .inl ⟨rfl, rfl, rfl⟩⟩
    · have hdep' : c.dependenciesCurrent value = true := by simpa using hdep
      rw [if_neg hdep]
      by_cases hmax : policy.maxStaleSeconds < (ageAt now value.observedAt : WithTop ℚ)
      · rw [if_pos hmax]
        exact ⟨CacheEntries.pop_within _ _, .inl ⟨rfl, rfl, rfl⟩⟩
      · rw [if_neg hmax]
        by_cases httl : (ageAt now value.observedAt : WithTop ℚ) ≤ policy.ttlSeconds
        · rw [if_pos httl]
          exact ⟨CacheEntries.touch_within _ _, .inr ⟨value, rfl, by simp [httl], not_lt.mp hmax,
            hdep', fun k => CacheEntries.get?_touch _ _ _⟩⟩
        · rw [if_neg httl]
          exact ⟨CacheEntries.touch_within _ _, .inr ⟨value, rfl, by simp [httl], not_lt.mp hmax,
            hdep', fun k => CacheEntries.get?_touch _ _ _⟩⟩

theorem getManyLocked_within (now : ℚ) (policies : K → FreshnessPolicy) :
    ∀ (keys : List K) (c : AsyncMemoryCache K V),
      (getManyLocked now policies keys c).2.entries.Within c.entries
  | [], _ => CacheEntries.Within.refl _
  | key :: keys, c =>
      (getManyLocked_within now policies keys _).trans
        (c.lookupLocked_cases now (policies key) key).1

theorem getManyLocked_keys (now : ℚ) (policies : K → FreshnessPolicy) :
    ∀ (keys : List K) (c : AsyncMemoryCache K V),
      (getManyLocked now policies keys c).1.map Prod.fst = keys
  | [], _ => rfl
  | key :: keys, c => by
      rw [getManyLocked, List.map_cons, getManyLocked_keys now policies keys]

/-- A lookup of `get_many`: absent, or the value stored when the call took the lock, with its
freshness decided by the key's policy at the time of the call. -/
def LookupOf (c : AsyncMemoryCache K V) (now : ℚ) (policy : FreshnessPolicy) (key : K)
    (lookup : CacheLookup K V) : Prop :=
  (lookup.value = none ∧ lookup.fresh = false ∧ lookup.usableStale = false) ∨
  ∃ value, c.get? key = some value ∧
    lookup = ⟨some value, decide ((ageAt now value.observedAt : WithTop ℚ) ≤ policy.ttlSeconds),
      true, some (ageAt now value.observedAt)⟩ ∧
    (ageAt now value.observedAt : WithTop ℚ) ≤ policy.maxStaleSeconds

theorem LookupOf.of_within {c d : AsyncMemoryCache K V} {now : ℚ} {policy : FreshnessPolicy}
    {key : K} {lookup : CacheLookup K V} (h : LookupOf c now policy key lookup)
    (hw : c.entries.Within d.entries) : LookupOf d now policy key lookup := by
  rcases h with h | ⟨value, hget, hl, hmax⟩
  · exact .inl h
  · exact .inr ⟨value, hw _ _ hget, hl, hmax⟩

theorem getManyLocked_lookup (now : ℚ) (policies : K → FreshnessPolicy) {key : K}
    {lookup : CacheLookup K V} :
    ∀ (keys : List K) (c : AsyncMemoryCache K V),
      (key, lookup) ∈ (getManyLocked now policies keys c).1 →
        LookupOf c now (policies key) key lookup
  | [], _, h => by simp [getManyLocked] at h
  | k :: keys, c, h => by
      obtain ⟨hw, hcases⟩ := c.lookupLocked_cases now (policies k) k
      rw [getManyLocked, List.mem_cons, Prod.mk.injEq] at h
      rcases h with ⟨rfl, rfl⟩ | h
      · rcases hcases with h | ⟨value, hget, hl, hmax, _, _⟩
        · exact .inl h
        · exact .inr ⟨value, hget, hl, hmax⟩
      · exact (getManyLocked_lookup now policies keys _ h).of_within hw

/-! ## Writes -/

/-- The pair that decides between two values of one key, ordered lexicographically. -/
def stamp (v : SnapshotValue K V) : ℤ ×ₗ ℚ := toLex (v.authorityRank, v.observedAt)

/-- `_candidate_precedes`: whether `candidate` replaces the one selected so far. -/
def candidatePrecedes (current candidate : SnapshotValue K V) : Bool :=
  if candidate.authorityRank ≠ current.authorityRank then
    decide (current.authorityRank < candidate.authorityRank)
  else decide (current.observedAt ≤ candidate.observedAt)

/-- `_select_candidates`: one candidate for every key of the batch. -/
def selectCandidates (values : List (SnapshotValue K V)) : CacheEntries K V :=
  values.foldl (fun selected value =>
    match selected.get? value.key with
    | none => selected.put value
    | some current => if candidatePrecedes current value then selected.put value else selected)
    .empty

/-- `_write_status`. -/
def writeStatus (previous : Option (SnapshotValue K V)) (value : SnapshotValue K V)
    (force replaceEqual : Bool) : CacheWriteStatus :=
  match previous with
  | none => .stored
  | some previous =>
    if force then .stored
    else if value.authorityRank < previous.authorityRank then .ignoredLowerAuthority
    else if previous.authorityRank < value.authorityRank then .stored
    else if value.observedAt < previous.observedAt then .ignoredOlder
    else if value.observedAt = previous.observedAt ∧ replaceEqual = false then .ignoredDuplicate
    else .stored

/-- `_CapturedWriteResult`. -/
structure CapturedWriteResult (K V : Type) where
  status : CacheWriteStatus
  value : SnapshotValue K V
  previous : Option (SnapshotValue K V)

/-- The candidates that qualify for storage and are not prepared yet. -/
def missingCandidates (c : AsyncMemoryCache K V) (force replaceEqual : Bool)
    (prepared : CacheEntries K V) (candidates : List (SnapshotValue K V)) :
    List (SnapshotValue K V) :=
  candidates.filter fun candidate =>
    decide (writeStatus (c.get? candidate.key) candidate force replaceEqual = .stored) &&
      (prepared.get? candidate.key).isNone

/-- `_enforce_limit_locked`. -/
def enforceLimitLocked (c : AsyncMemoryCache K V) : AsyncMemoryCache K V :=
  match c.maxEntries with
  | none => c
  | some limit => { c with
      entries := .popSurplus (c.entries.size - limit) c.entries
      evictions := c.evictions + (c.entries.size - limit) }

/-- One turn of the commit loop. A stored candidate without a prepared copy and an ignored one
without a previous value are the two failures of the source. -/
def commitOne (c : AsyncMemoryCache K V) (force replaceEqual : Bool) (prepared : CacheEntries K V)
    (candidate : SnapshotValue K V) :
    Option (CapturedWriteResult K V × AsyncMemoryCache K V) :=
  let previous := c.get? candidate.key
  match writeStatus previous candidate force replaceEqual with
  | .stored => (prepared.get? candidate.key).map fun stored =>
      (⟨.stored, stored, previous⟩, { c with
        entries := c.entries.store stored
        sets := c.sets + 1 })
  | status => previous.map fun current => (⟨status, current, previous⟩, c)

def commitCandidates (force replaceEqual : Bool) (prepared : CacheEntries K V) :
    List (SnapshotValue K V) → AsyncMemoryCache K V →
      Option (List (K × CapturedWriteResult K V) × AsyncMemoryCache K V)
  | [], c => some ([], c)
  | candidate :: candidates, c =>
    (c.commitOne force replaceEqual prepared candidate).bind fun first =>
      (commitCandidates force replaceEqual prepared candidates first.2).bind fun rest =>
        some ((candidate.key, first.1) :: rest.1, rest.2)

/-- The commit point of `set_many_if_newer`: the whole batch, then the limit. -/
def commitLocked (c : AsyncMemoryCache K V) (force replaceEqual : Bool)
    (prepared : CacheEntries K V) (candidates : List (SnapshotValue K V)) :
    Option (List (K × CapturedWriteResult K V) × AsyncMemoryCache K V) :=
  (commitCandidates force replaceEqual prepared candidates c).map fun result =>
    (result.1, result.2.enforceLimitLocked)

/-! ## Removals -/

/-- `invalidate_many`. -/
def invalidateMany (c : AsyncMemoryCache K V) (keys : List K) : AsyncMemoryCache K V :=
  { c with
    entries := c.entries.keep fun k => decide (k ∉ keys)
    invalidations :=
      c.invalidations + ((Dict.fromKeys keys).filter fun k => (c.get? k).isSome).length }

/-- `invalidate_matching`. -/
def invalidateMatching (c : AsyncMemoryCache K V) (predicate : K → Bool) : AsyncMemoryCache K V :=
  { c with
    entries := c.entries.keep fun k => !predicate k
    invalidations := c.invalidations + (c.entries.dict.keys.filter predicate).length }

/-- The keys `prune` removes. -/
def expired (c : AsyncMemoryCache K V) (now : ℚ) (policies : K → FreshnessPolicy) (k : K) : Bool :=
  match c.get? k with
  | none => false
  | some value => decide ((policies k).maxStaleSeconds < (ageAt now value.observedAt : WithTop ℚ))

/-- `prune`. -/
def prune (c : AsyncMemoryCache K V) (now : ℚ) (policies : K → FreshnessPolicy) :
    AsyncMemoryCache K V :=
  { c with
    entries := c.entries.keep fun k => !c.expired now policies k
    expirations := c.expirations + (c.entries.dict.keys.filter (c.expired now policies)).length }

/-- `clear`. -/
def clear (c : AsyncMemoryCache K V) : AsyncMemoryCache K V :=
  { c with entries := .empty, invalidations := c.invalidations + c.entries.size }

/-! ## What a commit does -/

theorem enforceLimitLocked_within (c : AsyncMemoryCache K V) :
    c.enforceLimitLocked.entries.Within c.entries := by
  unfold enforceLimitLocked
  split
  · exact CacheEntries.Within.refl _
  · exact CacheEntries.popSurplus_within _ _

omit [DecidableEq K] in
@[simp] theorem writeStatus_none (v : SnapshotValue K V) (force replaceEqual : Bool) :
    writeStatus none v force replaceEqual = .stored := rfl

omit [DecidableEq K] in
/-- An unforced write is stored only over a smaller or equal stamp. -/
theorem stamp_le_of_stored {p v : SnapshotValue K V} {replaceEqual : Bool}
    (h : writeStatus (some p) v false replaceEqual = .stored) : stamp p ≤ stamp v := by
  rw [stamp, stamp, Prod.Lex.toLex_le_toLex]
  rcases lt_trichotomy p.authorityRank v.authorityRank with hr | hr | hr
  · exact Or.inl hr
  · refine Or.inr ⟨hr, not_lt.mp fun ho => ?_⟩
    simp [writeStatus, hr, ho] at h
  · simp [writeStatus, hr] at h

omit [DecidableEq K] in
/-- With `replace_equal=False` the stamp grows strictly. -/
theorem stamp_lt_of_stored {p v : SnapshotValue K V}
    (h : writeStatus (some p) v false false = .stored) : stamp p < stamp v := by
  refine lt_of_le_of_ne (stamp_le_of_stored h) ?_
  intro he
  rw [stamp, stamp, toLex_inj, Prod.mk.injEq] at he
  simp [writeStatus, he.1, he.2] at h

/-- What one captured result must say about a candidate and the entry found at the commit. -/
def capture (c : AsyncMemoryCache K V) (force replaceEqual : Bool) (prepared : CacheEntries K V)
    (v : SnapshotValue K V) : CapturedWriteResult K V :=
  let status := writeStatus (c.get? v.key) v force replaceEqual
  ⟨status, if status = .stored then (prepared.get? v.key).getD v else (c.get? v.key).getD v,
    c.get? v.key⟩

/-- Every candidate that qualifies for storage has its prepared copy. -/
def Prepared (c : AsyncMemoryCache K V) (force replaceEqual : Bool) (prepared : CacheEntries K V)
    (candidates : List (SnapshotValue K V)) : Prop :=
  ∀ v ∈ candidates, writeStatus (c.get? v.key) v force replaceEqual = .stored →
    ∃ w, prepared.get? v.key = some w

theorem prepared_of_no_missing {c : AsyncMemoryCache K V} {force replaceEqual : Bool}
    {prepared : CacheEntries K V} {candidates : List (SnapshotValue K V)}
    (h : c.missingCandidates force replaceEqual prepared candidates = []) :
    c.Prepared force replaceEqual prepared candidates := by
  intro v hv hs
  have hnot := List.filter_eq_nil_iff.mp h v hv
  cases hp : prepared.get? v.key with
  | none => simp [hs, hp] at hnot
  | some w => exact ⟨w, rfl⟩

theorem commitOne_spec {c : AsyncMemoryCache K V} {force replaceEqual : Bool}
    {prepared : CacheEntries K V} {v : SnapshotValue K V}
    (h : writeStatus (c.get? v.key) v force replaceEqual = .stored →
      ∃ w, prepared.get? v.key = some w) :
    ∃ d, c.commitOne force replaceEqual prepared v =
        some (c.capture force replaceEqual prepared v, d) ∧
      (∀ k, k ≠ v.key → d.get? k = c.get? k) ∧
      d.get? v.key = some (c.capture force replaceEqual prepared v).value := by
  by_cases hs : writeStatus (c.get? v.key) v force replaceEqual = .stored
  · obtain ⟨w, hw⟩ := h hs
    refine ⟨{ c with entries := c.entries.store w, sets := c.sets + 1 },
      by simp [commitOne, capture, hs, hw], ?_, ?_⟩
    · intro k hk
      have hwk : w.key = v.key := prepared.keyed hw
      simp [get?, CacheEntries.get?_store, hwk, hk]
    · have hwk : w.key = v.key := prepared.keyed hw
      have hval : (c.capture force replaceEqual prepared v).value = w := by
        simp [capture, hs, hw]
      rw [hval]
      simp [get?, CacheEntries.get?_store, hwk]
  · cases hp : c.get? v.key with
    | none => exact absurd (by rw [hp]; rfl) hs
    | some p =>
      rw [hp] at hs
      refine ⟨c, ?_, fun k _ => rfl, ?_⟩
      · unfold commitOne capture
        rw [hp]
        cases hst : writeStatus (some p) v force replaceEqual <;> simp_all
      · simp [capture, hp, hs]

/-- The whole batch is committed against the entries found at its start. -/
theorem commitCandidates_spec {force replaceEqual : Bool} {prepared : CacheEntries K V} :
    ∀ {candidates : List (SnapshotValue K V)} {c : AsyncMemoryCache K V},
      (candidates.map SnapshotValue.key).Nodup →
      c.Prepared force replaceEqual prepared candidates →
      ∃ d, commitCandidates force replaceEqual prepared candidates c =
          some (candidates.map fun v => (v.key, c.capture force replaceEqual prepared v), d) ∧
        (∀ k, k ∉ candidates.map SnapshotValue.key → d.get? k = c.get? k) ∧
        ∀ v ∈ candidates, d.get? v.key = some (c.capture force replaceEqual prepared v).value
  | [], c, _, _ => ⟨c, rfl, fun _ _ => rfl, by simp⟩
  | v :: candidates, c, hnd, hprep => by
      rw [List.map_cons, List.nodup_cons] at hnd
      obtain ⟨d, hd, hother, hself⟩ := commitOne_spec (hprep v List.mem_cons_self)
      have hne : ∀ w ∈ candidates, w.key ≠ v.key := by
        intro w hw e
        exact hnd.1 (List.mem_map.mpr ⟨w, hw, e⟩)
      have hcap : ∀ w ∈ candidates,
          d.capture force replaceEqual prepared w = c.capture force replaceEqual prepared w := by
        intro w hw
        unfold capture
        rw [hother _ (hne w hw)]
      have hprep' : d.Prepared force replaceEqual prepared candidates := by
        intro w hw hs
        rw [hother _ (hne w hw)] at hs
        exact hprep w (List.mem_cons_of_mem _ hw) hs
      obtain ⟨e, he, hkeep, hset⟩ := commitCandidates_spec hnd.2 hprep'
      refine ⟨e, ?_, ?_, ?_⟩
      · rw [commitCandidates, hd, Option.bind_some, he, Option.bind_some, List.map_cons]
        congr 3
        exact List.map_congr_left fun w hw => by rw [hcap w hw]
      · intro k hk
        rw [List.map_cons, List.mem_cons, not_or] at hk
        rw [hkeep k hk.2, hother k hk.1]
      · intro w hw
        rcases List.mem_cons.mp hw with rfl | hw
        · rw [hkeep _ hnd.1, hself]
        · rw [hset w hw, hcap w hw]

/-- The commit point: the results compare every candidate with the entry found there, and what the
cache holds afterwards is the updated batch less the entries the limit evicts. -/
theorem commitLocked_spec {force replaceEqual : Bool} {prepared : CacheEntries K V}
    {candidates : List (SnapshotValue K V)} {c : AsyncMemoryCache K V}
    (hnd : (candidates.map SnapshotValue.key).Nodup)
    (hprep : c.Prepared force replaceEqual prepared candidates) :
    ∃ d, c.commitLocked force replaceEqual prepared candidates =
        some (candidates.map fun v => (v.key, c.capture force replaceEqual prepared v), d) ∧
      (∀ k w, k ∉ candidates.map SnapshotValue.key → d.get? k = some w → c.get? k = some w) ∧
      ∀ v ∈ candidates, ∀ w, d.get? v.key = some w →
        w = (c.capture force replaceEqual prepared v).value := by
  obtain ⟨d, hd, hkeep, hset⟩ := commitCandidates_spec hnd hprep
  refine ⟨d.enforceLimitLocked, by rw [commitLocked, hd]; rfl, ?_, ?_⟩
  · intro k w hk hw
    rw [← hkeep k hk]
    exact d.enforceLimitLocked_within k w hw
  · intro v hv w hw
    have h := d.enforceLimitLocked_within _ w hw
    change d.get? v.key = some w at h
    rw [hset v hv, Option.some.injEq] at h
    exact h.symm

end AsyncMemoryCache
end Coalestra
