import Mathlib.Data.List.Perm.Basic
import Coalestra.Cache.Writers

/-! # Recency and counters

What the calls on a cache answered is kept beside it as a history: the keys they touched and totals
of what was looked up and stored. Every operation is accounted for by the history of its answers,
so over any run of interleaved tasks the entries stand in the order of their last touches and the
counters balance. -/

namespace Coalestra
set_option autoImplicit false
set_option maxHeartbeats 250000

open AsyncMemoryCache

/-! ## Histories -/

/-- What answered calls touched, the latest touch first, and what they looked up and stored. -/
structure CacheHistory (K : Type) where
  touched : List K
  lookedUp : ℕ
  stored : ℕ
  inserted : ℕ

namespace CacheHistory
variable {K V : Type}

def empty : CacheHistory K := ⟨[], 0, 0, 0⟩

/-- The history that continues `earlier` with `later`. -/
def after (later earlier : CacheHistory K) : CacheHistory K :=
  ⟨later.touched ++ earlier.touched, earlier.lookedUp + later.lookedUp,
    earlier.stored + later.stored, earlier.inserted + later.inserted⟩

/-- A returned hit is a touch; the keys of one call are distinct. -/
def ofLookups (lookups : List (K × CacheLookup K V)) : CacheHistory K :=
  ⟨((lookups.filter fun l => l.2.value.isSome).map Prod.fst).reverse, lookups.length, 0, 0⟩

/-- A store is a touch, an ignored write is none. -/
def ofResults (results : List (K × CapturedWriteResult K V)) : CacheHistory K :=
  let stored := results.filter fun r => decide (r.2.status = .stored)
  ⟨(stored.map Prod.fst).reverse, 0, stored.length,
    stored.countP fun r => r.2.previous.isNone⟩

end CacheHistory

/-- The cache tasks and the history of their answers. -/
structure ObservedCache (K V : Type) [DecidableEq K] where
  tasks : CacheTasks K V
  history : CacheHistory K

section
variable {K V : Type} [DecidableEq K]

/-- The results a write call has captured. -/
def capturedBy (s : CacheTasks K V) (w : ℕ) : List (K × CapturedWriteResult K V) :=
  ((s.writers[w]?).bind fun writer => writer.phase.results).getD []

/-- What the answers of one step add to the history. -/
def stepHistory (s : CacheTasks K V) (e : CacheEvent K V) (t : CacheTasks K V) : CacheHistory K :=
  match e with
  | .getMany keys now policies =>
    { CacheHistory.ofLookups (s.cache.getMany now policies keys).1 with
      lookedUp := (Dict.fromKeys keys).length }
  | .check w => .ofResults (capturedBy t w)
  | _ => .empty

def observeStep (copier : V → V) (s : ObservedCache K V) (e : CacheEvent K V) :
    Option (ObservedCache K V) :=
  (cacheStep copier s.tasks e).map fun t => ⟨t, (stepHistory s.tasks e t).after s.history⟩

/-- A constructed cache before any call. -/
def ObservedCache.new (maxEntries : Option ℕ) (h : ∀ n, maxEntries = some n → 1 ≤ n) :
    ObservedCache K V := ⟨⟨AsyncMemoryCache.new maxEntries h, []⟩, .empty⟩

/-- The touched keys, each at its last touch, the latest first. -/
def lastTouches (touched : List K) : List K := Dict.fromKeys touched

/-- The last touch of `i` precedes that of `j`. -/
def TouchedBefore (touched : List K) (i j : K) : Prop := [j, i].Sublist (lastTouches touched)

/-! ## Order and size of the entries -/

/-- The entries stand in the order of their last touches. -/
def Recent (touched : List K) (e : CacheEntries K V) : Prop :=
  e.dict.keys.reverse.Sublist (lastTouches touched)

theorem Recent.keep {touched : List K} {e : CacheEntries K V} (h : Recent touched e)
    (p : K → Bool) : Recent touched (e.keep p) := by
  unfold Recent
  rw [CacheEntries.keys_keep, ← List.filter_reverse]
  exact List.filter_sublist.trans h

/-- The touched key becomes the latest one. -/
theorem Recent.moved {touched : List K} {e e' : CacheEntries K V} {k : K} (h : Recent touched e)
    (hkeys : e'.dict.keys = (e.dict.keys.filter fun j => decide (j ≠ k)) ++ [k]) :
    Recent (k :: touched) e' := by
  unfold Recent lastTouches
  rw [hkeys, List.reverse_append, List.reverse_singleton, List.singleton_append,
    ← List.filter_reverse, Dict.fromKeys]
  exact (h.filter _).cons_cons k

theorem size_keep (e : CacheEntries K V) (p : K → Bool) :
    (e.keep p).size + (e.dict.keys.filter fun k => !p k).length = e.size := by
  rw [CacheEntries.size_eq_length_keys, CacheEntries.size_eq_length_keys, CacheEntries.keys_keep]
  exact (List.length_eq_length_filter_add p).symm

theorem length_filter_ne {l : List K} {k : K} (hnd : l.Nodup) (hk : k ∈ l) :
    (l.filter fun j => decide (j ≠ k)).length + 1 = l.length := by
  have hperm : (k :: l.filter fun j => decide (j ≠ k)).Perm l := by
    refine (List.perm_ext_iff_of_nodup ?_ hnd).mpr fun j => ?_
    · exact List.nodup_cons.mpr ⟨by simp, hnd.filter _⟩
    · by_cases h : j = k
      · simp [h, hk]
      · simp [h]
  exact hperm.length_eq

theorem size_pop {e : CacheEntries K V} {k : K} (h : k ∈ e.dict.keys) :
    (e.pop k).size + 1 = e.size := by
  rw [CacheEntries.size_eq_length_keys, CacheEntries.size_eq_length_keys, CacheEntries.pop,
    CacheEntries.keys_keep]
  exact length_filter_ne e.dict.nodup h

theorem size_touch {e : CacheEntries K V} {k : K} (h : k ∈ e.dict.keys) :
    (e.touch k).size = e.size := by
  rw [CacheEntries.size_eq_length_keys, CacheEntries.size_eq_length_keys,
    CacheEntries.keys_touch h, List.length_append, List.length_singleton]
  exact length_filter_ne e.dict.nodup h

theorem size_store (e : CacheEntries K V) (v : SnapshotValue K V) :
    (e.store v).size = e.size + if (e.get? v.key).isNone then 1 else 0 := by
  rw [CacheEntries.size_eq_length_keys, CacheEntries.size_eq_length_keys,
    CacheEntries.keys_store, List.length_append, List.length_singleton]
  cases hget : e.get? v.key with
  | none =>
    have hnew : v.key ∉ e.dict.keys := Dict.get?_eq_none.mp hget
    have hsame : (e.dict.keys.filter fun j => decide (j ≠ v.key)) = e.dict.keys := by
      refine List.filter_eq_self.mpr fun j hj => ?_
      exact decide_eq_true fun h => hnew (h ▸ hj)
    rw [hsame]
    rfl
  | some w => exact length_filter_ne e.dict.nodup (CacheEntries.mem_keys.mpr ⟨w, hget⟩)

theorem CacheEntries.Within.size_le {e e' : CacheEntries K V} (h : e.Within e') :
    e.size ≤ e'.size := by
  rw [CacheEntries.size_eq_length_keys, CacheEntries.size_eq_length_keys]
  refine (List.subperm_of_subset e.dict.nodup fun k hk => ?_).length_le
  obtain ⟨v, hv⟩ := CacheEntries.mem_keys.mp hk
  exact CacheEntries.mem_keys.mpr ⟨v, h k v hv⟩

/-! ## What a history accounts for -/

/-- The history accounts for the way from `c` to `d`: its touches for the entry order, its totals
for the counters. -/
structure Accounted (c d : AsyncMemoryCache K V) (h : CacheHistory K) : Prop where
  limit : d.maxEntries = c.maxEntries
  recent : ∀ before, Recent before c.entries → Recent (h.touched ++ before) d.entries
  size : d.entries.size + d.invalidations + d.evictions + d.expirations =
    c.entries.size + c.invalidations + c.evictions + c.expirations + h.inserted
  hits : d.hits + (c.freshHits + c.staleHits) = c.hits + (d.freshHits + d.staleHits)
  looked : d.hits + d.misses = c.hits + c.misses + h.lookedUp
  sets : d.sets = c.sets + h.stored

theorem Accounted.refl (c : AsyncMemoryCache K V) : Accounted c c .empty :=
  ⟨rfl, fun _ h => h, rfl, rfl, rfl, rfl⟩

theorem Accounted.trans {c d f : AsyncMemoryCache K V} {earlier later : CacheHistory K}
    (h : Accounted c d earlier) (h' : Accounted d f later) :
    Accounted c f (later.after earlier) := by
  refine ⟨h'.limit.trans h.limit, fun before hb => ?_, ?_, ?_, ?_, ?_⟩
  · rw [CacheHistory.after, List.append_assoc]
    exact h'.recent _ (h.recent before hb)
  · have h1 := h.size
    have h2 := h'.size
    simp only [CacheHistory.after]
    omega
  · have h1 := h.hits
    have h2 := h'.hits
    omega
  · have h1 := h.looked
    have h2 := h'.looked
    simp only [CacheHistory.after]
    omega
  · have h1 := h.sets
    have h2 := h'.sets
    simp only [CacheHistory.after]
    omega

/-! ## Reads -/

theorem lookupLocked_accounted (c : AsyncMemoryCache K V) (now : ℚ) (policy : FreshnessPolicy)
    (key : K) : Accounted c (c.lookupLocked now policy key).2
      (.ofLookups [(key, (c.lookupLocked now policy key).1)]) := by
  unfold lookupLocked
  cases hget : c.get? key with
  | none => exact ⟨rfl, fun _ h => h, rfl, rfl, (Nat.add_assoc _ _ _).symm, rfl⟩
  | some value =>
    have hmem : key ∈ c.entries.dict.keys := CacheEntries.mem_keys.mpr ⟨value, hget⟩
    have hpop := size_pop hmem
    have htouch := size_touch hmem
    simp only
    by_cases hdep : c.dependenciesCurrent value = false
    · rw [if_pos hdep]
      refine ⟨rfl, fun _ h => h.keep _, ?_, rfl, (Nat.add_assoc _ _ _).symm, rfl⟩
      simp only [CacheHistory.ofLookups]
      omega
    · rw [if_neg hdep]
      by_cases hmax : policy.maxStaleSeconds < (ageAt now value.observedAt : WithTop ℚ)
      · rw [if_pos hmax]
        refine ⟨rfl, fun _ h => h.keep _, ?_, rfl, (Nat.add_assoc _ _ _).symm, rfl⟩
        simp only [CacheHistory.ofLookups]
        omega
      · rw [if_neg hmax]
        by_cases httl : (ageAt now value.observedAt : WithTop ℚ) ≤ policy.ttlSeconds
        · rw [if_pos httl]
          refine ⟨rfl, fun _ h => h.moved (CacheEntries.keys_touch hmem), ?_, ?_, ?_, rfl⟩
          · simp only [CacheHistory.ofLookups, htouch]
            omega
          · simp only
            omega
          · simp only [CacheHistory.ofLookups, List.length_singleton]
            omega
        · rw [if_neg httl]
          refine ⟨rfl, fun _ h => h.moved (CacheEntries.keys_touch hmem), ?_, ?_, ?_, rfl⟩
          · simp only [CacheHistory.ofLookups, htouch]
            omega
          · simp only
            omega
          · simp only [CacheHistory.ofLookups, List.length_singleton]
            omega

omit [DecidableEq K] in
theorem ofLookups_cons (first : K × CacheLookup K V) (rest : List (K × CacheLookup K V)) :
    CacheHistory.ofLookups (first :: rest) =
      (CacheHistory.ofLookups rest).after (.ofLookups [first]) := by
  unfold CacheHistory.ofLookups CacheHistory.after
  cases hvalue : first.2.value <;> simp [hvalue, Nat.add_comm]

theorem getManyLocked_accounted (now : ℚ) (policies : K → FreshnessPolicy) :
    ∀ (keys : List K) (c : AsyncMemoryCache K V),
      Accounted c (getManyLocked now policies keys c).2
        (.ofLookups (getManyLocked now policies keys c).1)
  | [], c => .refl c
  | key :: keys, c => by
      rw [getManyLocked, ofLookups_cons]
      exact (lookupLocked_accounted c now (policies key) key).trans
        (getManyLocked_accounted now policies keys _)

/-! ## Removals -/

/-- A removal that counts what it removes, as invalidations `i` or as expirations `e`. -/
theorem Accounted.removal {c d : AsyncMemoryCache K V} {p : K → Bool} {i e : ℕ}
    (hd : d = { c with
      entries := c.entries.keep p
      invalidations := c.invalidations + i
      expirations := c.expirations + e })
    (hcount : (c.entries.dict.keys.filter fun k => !p k).length = i + e) :
    Accounted c d .empty := by
  subst hd
  have hsize := size_keep c.entries p
  refine ⟨rfl, fun _ h => h.keep p, ?_, rfl, rfl, rfl⟩
  simp only [CacheHistory.empty]
  omega

theorem invalidateMany_accounted (c : AsyncMemoryCache K V) (keys : List K) :
    Accounted c (c.invalidateMany keys) .empty := by
  refine Accounted.removal (p := fun k => decide (k ∉ keys)) (e := 0) rfl ?_
  have hnd : c.entries.dict.keys.Nodup := c.entries.dict.nodup
  have hperm : (c.entries.dict.keys.filter fun k => !decide (k ∉ keys)).Perm
      ((Dict.fromKeys keys).filter fun k => (c.get? k).isSome) := by
    refine (List.perm_ext_iff_of_nodup (hnd.filter _)
      ((Dict.nodup_fromKeys keys).filter _)).mpr fun k => ?_
    have hmem : k ∈ c.entries.dict.keys ↔ ∃ v, c.get? k = some v := CacheEntries.mem_keys
    rw [List.mem_filter, List.mem_filter, hmem, Dict.mem_fromKeys, Option.isSome_iff_exists]
    simp [and_comm]
  exact hperm.length_eq

theorem clear_accounted (c : AsyncMemoryCache K V) : Accounted c c.clear .empty := by
  refine ⟨rfl, fun _ _ => List.nil_sublist _, ?_, rfl, rfl, rfl⟩
  have hnone : (CacheEntries.empty : CacheEntries K V).size = 0 := rfl
  simp only [clear, CacheHistory.empty, hnone]
  omega

/-! ## Commits -/

theorem commitOne_accounted {c d : AsyncMemoryCache K V} {force replaceEqual : Bool}
    {prepared : CacheEntries K V} {v : SnapshotValue K V} {result : CapturedWriteResult K V}
    (h : c.commitOne force replaceEqual prepared v = some (result, d)) :
    Accounted c d (.ofResults [(v.key, result)]) ∧
      (∀ k ∈ c.entries.dict.keys, k ∈ d.entries.dict.keys) ∧
      (result.status = .stored → v.key ∈ d.entries.dict.keys) := by
  simp only [commitOne] at h
  split at h
  · obtain ⟨stored, hstored, he⟩ := Option.map_eq_some_iff.mp h
    rw [Prod.mk.injEq] at he
    obtain ⟨rfl, rfl⟩ := he
    have hkey : stored.key = v.key := prepared.keyed hstored
    have hkeys := CacheEntries.keys_store c.entries stored
    have hsize := size_store c.entries stored
    rw [hkey] at hkeys hsize
    refine ⟨⟨rfl, fun _ hb => hb.moved hkeys, ?_, rfl, rfl, rfl⟩, fun k hk => ?_, fun _ => ?_⟩
    · have hprevious : ([(v.key, (⟨.stored, stored, c.get? v.key⟩ : CapturedWriteResult K V))].countP
          fun r => r.2.previous.isNone) = if (c.entries.get? v.key).isNone then 1 else 0 := by
        rw [List.countP_singleton]
        rfl
      simp only [CacheHistory.ofResults, decide_true, List.filter_cons_of_pos, List.filter_nil,
        hprevious, hsize]
      omega
    · rw [hkeys]
      by_cases hkv : k = v.key
      · simp [hkv]
      · simp [hkv, hk]
    · rw [hkeys]
      simp
  · rename_i status hstatus
    obtain ⟨current, -, he⟩ := Option.map_eq_some_iff.mp h
    rw [Prod.mk.injEq] at he
    obtain ⟨rfl, rfl⟩ := he
    have hnone : CacheHistory.ofResults [(v.key,
        (⟨writeStatus (c.get? v.key) v force replaceEqual, current, c.get? v.key⟩ :
          CapturedWriteResult K V))] = .empty := by
      have hfilter : (decide (writeStatus (c.get? v.key) v force replaceEqual = .stored)) = false :=
        decide_eq_false hstatus
      simp only [CacheHistory.ofResults, List.filter_cons, hfilter, List.filter_nil]
      rfl
    rw [hnone]
    exact ⟨.refl c, fun _ hk => hk, fun hs => absurd hs hstatus⟩

omit [DecidableEq K] in
theorem ofResults_cons (first : K × CapturedWriteResult K V)
    (rest : List (K × CapturedWriteResult K V)) : CacheHistory.ofResults (first :: rest) =
      (CacheHistory.ofResults rest).after (.ofResults [first]) := by
  unfold CacheHistory.ofResults CacheHistory.after
  by_cases hstatus : first.2.status = .stored
  · cases hprevious : first.2.previous <;>
      simp [hstatus, hprevious, Nat.add_comm]
  · simp [hstatus]

theorem commitCandidates_accounted {force replaceEqual : Bool} {prepared : CacheEntries K V} :
    ∀ {candidates : List (SnapshotValue K V)} {c d : AsyncMemoryCache K V}
      {results : List (K × CapturedWriteResult K V)},
      commitCandidates force replaceEqual prepared candidates c = some (results, d) →
        Accounted c d (.ofResults results) ∧
        (∀ k ∈ c.entries.dict.keys, k ∈ d.entries.dict.keys) ∧
        ∀ r ∈ results, r.2.status = .stored → r.1 ∈ d.entries.dict.keys
  | [], c, d, results, h => by
      rw [commitCandidates, Option.some.injEq, Prod.mk.injEq] at h
      obtain ⟨rfl, rfl⟩ := h
      exact ⟨.refl c, fun _ hk => hk, fun r hr => absurd hr List.not_mem_nil⟩
  | v :: candidates, c, d, results, h => by
      obtain ⟨⟨result, c'⟩, hfirst, h⟩ := Option.bind_eq_some_iff.mp h
      obtain ⟨⟨rest, d'⟩, hrest, h⟩ := Option.bind_eq_some_iff.mp h
      rw [Option.some.injEq, Prod.mk.injEq] at h
      obtain ⟨rfl, rfl⟩ := h
      obtain ⟨haccounted, hkeeps, hself⟩ := commitOne_accounted hfirst
      obtain ⟨haccounted', hkeeps', hself'⟩ := commitCandidates_accounted hrest
      rw [ofResults_cons]
      refine ⟨haccounted.trans haccounted', fun k hk => hkeeps' k (hkeeps k hk), fun r hr hs => ?_⟩
      rcases List.mem_cons.mp hr with rfl | hr
      · exact hkeeps' _ (hself hs)
      · exact hself' r hr hs

/-- The limit takes the oldest entries away. -/
theorem enforceLimitLocked_spec (c : AsyncMemoryCache K V) :
    Accounted c c.enforceLimitLocked .empty ∧
      (∃ n, c.enforceLimitLocked.entries.dict.keys = c.entries.dict.keys.drop n) ∧
      ∀ n, c.maxEntries = some n → c.enforceLimitLocked.entries.size ≤ n := by
  unfold enforceLimitLocked
  split
  · rename_i hlimit
    rw [hlimit]
    exact ⟨.refl c, ⟨0, rfl⟩, nofun⟩
  · rename_i limit hlimit
    have hkeys := CacheEntries.keys_popSurplus (c.entries.size - limit) c.entries
    have hsize := congrArg List.length hkeys
    rw [← CacheEntries.size_eq_length_keys, List.length_drop,
      ← CacheEntries.size_eq_length_keys] at hsize
    refine ⟨⟨rfl, fun before hb => ?_, ?_, rfl, rfl, rfl⟩, ⟨_, hkeys⟩, fun n hn => ?_⟩
    · exact ((hkeys ▸ List.drop_sublist _ _).reverse).trans hb
    · simp only [CacheHistory.empty]
      omega
    · rw [hlimit, Option.some.injEq] at hn
      simp only
      omega

/-! ## Steps and runs -/

/-- A check round leaves the cache alone, or it commits a batch and then enforces the limit. -/
theorem check_spec {copier : V → V} {s t : CacheTasks K V} {w : ℕ}
    (h : cacheStep copier s (.check w) = some t) :
    (t.cache = s.cache ∧ capturedBy t w = []) ∨
      ∃ mid : AsyncMemoryCache K V, t.cache = mid.enforceLimitLocked ∧
        Accounted s.cache mid (.ofResults (capturedBy t w)) ∧
        (∀ k ∈ s.cache.entries.dict.keys, k ∈ mid.entries.dict.keys) ∧
        ∀ r ∈ capturedBy t w, r.2.status = .stored → r.1 ∈ mid.entries.dict.keys := by
  cases cacheStep_cases h with
  | commit w writer prepared results cache hw hphase hmissing hcommit ht =>
    subst ht
    have hcaptured : capturedBy (setPhase s w writer (.committed results) cache) w = results := by
      rw [capturedBy, setPhase_get? hw, if_pos rfl]
      rfl
    obtain ⟨⟨results', mid⟩, hmid, he⟩ := Option.map_eq_some_iff.mp hcommit
    rw [Prod.mk.injEq] at he
    obtain ⟨rfl, rfl⟩ := he
    rw [hcaptured]
    exact .inr ⟨mid, rfl, commitCandidates_accounted hmid⟩
  | recheck w writer prepared missing hw hphase hne hmissing ht =>
    subst ht
    refine .inl ⟨rfl, ?_⟩
    rw [capturedBy, setPhase_get? hw, if_pos rfl]
    rfl
  | removal _ hchecks _ _ => simpa [CacheEvent.checks] using hchecks w

/-- Copies are made outside the lock. -/
theorem copies_outside_lock {copier : V → V} {s t : CacheTasks K V} {e : CacheEvent K V} {w : ℕ}
    (he : e = .prepared w ∨ e = .copyFails w) (h : cacheStep copier s e = some t) :
    t.cache = s.cache := by
  rcases he with rfl | rfl
  all_goals
    simp only [cacheStep] at h
    split at h
    · split at h
      · rw [Option.some.injEq] at h
        rw [← h]
        rfl
      · cases h
    · cases h

theorem step_accounted {copier : V → V} {s t : CacheTasks K V} {e : CacheEvent K V}
    (h : cacheStep copier s e = some t) : Accounted s.cache t.cache (stepHistory s e t) := by
  cases e with
  | check w =>
    rcases check_spec h with ⟨hcache, hcaptured⟩ | ⟨mid, hcache, hmid, _, _⟩
    · rw [hcache, stepHistory, hcaptured]
      exact .refl _
    · rw [hcache, stepHistory]
      exact hmid.trans (enforceLimitLocked_spec mid).1
  | getMany keys now policies =>
    rw [cacheStep, Option.some.injEq] at h
    subst h
    have hread := getManyLocked_accounted now policies (Dict.fromKeys keys) s.cache
    have hlength : (s.cache.getMany now policies keys).1.length = (Dict.fromKeys keys).length := by
      rw [← List.length_map Prod.fst]
      exact congrArg List.length (getManyLocked_keys now policies (Dict.fromKeys keys) s.cache)
    rw [stepHistory, ← hlength]
    exact hread
  | call values force replaceEqual =>
    rw [cacheStep, Option.some.injEq] at h
    subst h
    exact .refl _
  | prepared w =>
    rw [copies_outside_lock (.inl rfl) h]
    exact .refl _
  | copyFails w =>
    rw [copies_outside_lock (.inr rfl) h]
    exact .refl _
  | invalidateMany keys =>
    rw [cacheStep, Option.some.injEq] at h
    subst h
    exact invalidateMany_accounted s.cache keys
  | invalidateMatching predicate =>
    rw [cacheStep, Option.some.injEq] at h
    subst h
    exact Accounted.removal (p := fun k => !predicate k) (e := 0) rfl (by simp)
  | prune now policies =>
    rw [cacheStep, Option.some.injEq] at h
    subst h
    exact Accounted.removal (p := fun k => !s.cache.expired now policies k) (i := 0) rfl (by simp)
  | clear =>
    rw [cacheStep, Option.some.injEq] at h
    subst h
    exact clear_accounted s.cache

/-- Only a commit can leave more entries than it found, and the limit follows it. -/
theorem step_bounded {copier : V → V} {s t : CacheTasks K V} {e : CacheEvent K V}
    (h : cacheStep copier s e = some t)
    (hs : ∀ n, s.cache.maxEntries = some n → s.cache.entries.size ≤ n) :
    ∀ n, t.cache.maxEntries = some n → t.cache.entries.size ≤ n := by
  intro n hn
  rw [(step_accounted h).limit] at hn
  cases cacheStep_cases h with
  | call _ _ _ ht => subst ht; exact hs n hn
  | commit w _ _ _ _ _ _ _ _ _ =>
    rcases check_spec h with ⟨hcache, _⟩ | ⟨mid, hcache, hmid, _, _⟩
    · rw [hcache]
      exact hs n hn
    · rw [hcache]
      exact (enforceLimitLocked_spec mid).2.2 n (hmid.limit.trans hn)
  | recheck _ _ _ _ _ _ _ _ ht => subst ht; exact hs n hn
  | prepared _ _ _ _ _ _ ht => subst ht; exact hs n hn
  | copyFails _ _ _ _ _ _ ht => subst ht; exact hs n hn
  | removal _ _ _ hwithin => exact hwithin.size_le.trans (hs n hn)

theorem observeStep_cases {copier : V → V} {s u : ObservedCache K V} {e : CacheEvent K V}
    (h : observeStep copier s e = some u) : cacheStep copier s.tasks e = some u.tasks ∧
      u.history = (stepHistory s.tasks e u.tasks).after s.history := by
  obtain ⟨t, ht, rfl⟩ := Option.map_eq_some_iff.mp h
  exact ⟨ht, rfl⟩

section
variable {copier : V → V} {maxEntries : Option ℕ} {hpos : ∀ n, maxEntries = some n → 1 ≤ n}
  {es : List (CacheEvent K V)} {t : ObservedCache K V}

/-- The history of a run accounts for the cache it reaches. -/
theorem run_accounted (hrun : Run (observeStep copier) (.new maxEntries hpos) es t) :
    Accounted (AsyncMemoryCache.new maxEntries hpos) t.tasks.cache t.history := by
  refine hrun.invariant
    (fun t => Accounted (AsyncMemoryCache.new maxEntries hpos) t.tasks.cache t.history)
    (fun s e u _ hs hstep => ?_) (.refl _)
  obtain ⟨ht, hhistory⟩ := observeStep_cases hstep
  rw [hhistory]
  exact hs.trans (step_accounted ht)

theorem run_bounded (hrun : Run (observeStep copier) (.new maxEntries hpos) es t) :
    ∀ n, t.tasks.cache.maxEntries = some n → t.tasks.cache.entries.size ≤ n := by
  refine hrun.invariant
    (fun t => ∀ n, t.tasks.cache.maxEntries = some n → t.tasks.cache.entries.size ≤ n)
    (fun s e u _ hs hstep => ?_) (fun n _ => Nat.zero_le n)
  exact step_bounded (observeStep_cases hstep).1 hs

theorem run_recent (hrun : Run (observeStep copier) (.new maxEntries hpos) es t) :
    Recent t.history.touched t.tasks.cache.entries := by
  have h := (run_accounted hrun).recent [] (List.nil_sublist _)
  rwa [List.append_nil] at h

end

/-! ## The representation -/

/-- A sublist of a list without repetition is what the list keeps of its members. -/
theorem filter_mem_eq {l m : List K} (h : l.Sublist m) (hnd : m.Nodup) :
    m.filter (fun k => decide (k ∈ l)) = l := by
  induction h with
  | slnil => rfl
  | @cons l m a h ih =>
    rw [List.nodup_cons] at hnd
    have hnot : a ∉ l := fun ha => hnd.1 (h.subset ha)
    rw [List.filter_cons, if_neg (by simpa using hnot), ih hnd.2]
  | @cons_cons l m a h ih =>
    rw [List.nodup_cons] at hnd
    rw [List.filter_cons, if_pos (by simp)]
    congr 1
    rw [← ih hnd.2]
    refine List.filter_congr fun k hk => ?_
    have hne : k ≠ a := fun e => hnd.1 (e ▸ hk)
    rw [ih hnd.2]
    simp [hne]

/-- The cache as a bounded list of entries, oldest touch first. -/
structure BoundedLru (maxEntries : Option ℕ) (touched : List K) (c : AsyncMemoryCache K V) :
    Prop where
  keyed : ∀ k v, c.get? k = some v → v.key = k
  bounded : ∀ n, maxEntries = some n → c.entries.size ≤ n
  ordered : c.entries.dict.keys =
    ((lastTouches touched).filter fun k => decide (k ∈ c.entries.dict.keys)).reverse

/-- The step took `k` away to keep the limit: `k` was an entry, or the batch stored it. -/
def Evicted (s : ObservedCache K V) (e : CacheEvent K V) (t : ObservedCache K V) (k : K) : Prop :=
  ∃ w, e = .check w ∧ k ∉ t.tasks.cache.entries.dict.keys ∧
    (k ∈ s.tasks.cache.entries.dict.keys ∨
      ∃ r ∈ capturedBy t.tasks w, r.1 = k ∧ r.2.status = .stored)

/-- What the limit drops was touched before what it keeps. -/
theorem evicted_first {touched : List K} {c : AsyncMemoryCache K V}
    (h : Recent touched c.entries) {gone kept : K} (hgone : gone ∈ c.entries.dict.keys)
    (hnot : gone ∉ c.enforceLimitLocked.entries.dict.keys)
    (hkept : kept ∈ c.enforceLimitLocked.entries.dict.keys) : TouchedBefore touched gone kept := by
  obtain ⟨n, hn⟩ := (enforceLimitLocked_spec c).2.1
  rw [hn] at hnot hkept
  have htake : gone ∈ c.entries.dict.keys.take n := by
    rw [← List.take_append_drop n c.entries.dict.keys, List.mem_append] at hgone
    exact hgone.resolve_right hnot
  have hpair : [gone, kept].Sublist c.entries.dict.keys := by
    rw [← List.take_append_drop n c.entries.dict.keys]
    exact (List.singleton_sublist.mpr htake).append (List.singleton_sublist.mpr hkept)
  exact hpair.reverse.trans h

/-- Over any run of interleaved operations the cache is a bounded list of entries in the order of
their last touches, and an eviction takes only entries whose last touch precedes that of every
entry it leaves. -/
theorem bounded_lru {copier : V → V} {maxEntries : Option ℕ}
    {hpos : ∀ n, maxEntries = some n → 1 ≤ n} {es : List (CacheEvent K V)} {t : ObservedCache K V}
    (hrun : Run (observeStep copier) (.new maxEntries hpos) es t) :
    BoundedLru maxEntries t.history.touched t.tasks.cache ∧
      ∀ e u, observeStep copier t e = some u → ∀ gone kept, Evicted t e u gone →
        kept ∈ u.tasks.cache.entries.dict.keys → TouchedBefore u.history.touched gone kept := by
  refine ⟨⟨fun k v hv => t.tasks.cache.entries.keyed hv, fun n hn => ?_, ?_⟩, ?_⟩
  · exact run_bounded hrun n ((run_accounted hrun).limit.trans hn)
  · have horder := filter_mem_eq (run_recent hrun) (Dict.nodup_fromKeys t.history.touched)
    rw [← List.reverse_eq_iff, ← horder]
    simp [lastTouches]
  · rintro e u hu gone kept ⟨w, rfl, hnot, hwas⟩ hkept
    obtain ⟨hstep, hhistory⟩ := observeStep_cases hu
    rcases check_spec hstep with ⟨hcache, hcaptured⟩ | ⟨mid, hcache, hmid, hkeeps, hstores⟩
    · rw [hcaptured] at hwas
      rw [hcache] at hnot
      rcases hwas with hwas | ⟨r, hr, _⟩
      · exact absurd hwas hnot
      · exact absurd hr List.not_mem_nil
    · rw [hcache] at hnot hkept
      have hgone : gone ∈ mid.entries.dict.keys := by
        rcases hwas with hwas | ⟨r, hr, rfl, hstored⟩
        · exact hkeeps gone hwas
        · exact hstores r hr hstored
      rw [hhistory]
      exact evicted_first (hmid.recent _ (run_recent hrun)) hgone hnot hkept

/-! ## The counters -/

/-- The counters of the cache against the answers of its calls. -/
structure CountersBalance (h : CacheHistory K) (c : AsyncMemoryCache K V) : Prop where
  size : (c.entries.size : ℤ) = h.inserted - c.invalidations - c.evictions - c.expirations
  hits : c.hits = c.freshHits + c.staleHits
  looked : c.hits + c.misses = h.lookedUp
  sets : c.sets = h.stored

/-- Over any run of interleaved operations the counters balance. -/
theorem counters_balance {copier : V → V} {maxEntries : Option ℕ}
    {hpos : ∀ n, maxEntries = some n → 1 ≤ n} {es : List (CacheEvent K V)} {t : ObservedCache K V}
    (hrun : Run (observeStep copier) (.new maxEntries hpos) es t) :
    CountersBalance t.history t.tasks.cache := by
  have h := run_accounted hrun
  have hempty : (CacheEntries.empty : CacheEntries K V).size = 0 := rfl
  refine ⟨?_, ?_, ?_, ?_⟩
  · have hsize := h.size
    simp only [AsyncMemoryCache.new, hempty] at hsize
    omega
  · have hhits := h.hits
    simp only [AsyncMemoryCache.new] at hhits
    omega
  · have hlooked := h.looked
    simp only [AsyncMemoryCache.new] at hlooked
    omega
  · have hsets := h.sets
    simp only [AsyncMemoryCache.new] at hsets
    omega

end

/-! ## A batch larger than the limit -/

def threeValues : List (SnapshotValue ℕ ℕ) :=
  let value (key version : ℕ) : SnapshotValue ℕ ℕ :=
    ⟨key, 7, "rest", 0, 0, 0, false, false, 0, version, .empty⟩
  [value 0 0, value 1 1, value 2 2]

/-- The batch is ready to commit. -/
def batchReady : List (CacheEvent ℕ ℕ) :=
  [.call threeValues false false, .check 0, .prepared 0]

def twoEntries : ObservedCache ℕ ℕ := .new (some 2) (by simp)

theorem bounded_lru_batch : ∃ t u, exec (observeStep id) twoEntries batchReady = some t ∧
    observeStep id t (.check 0) = some u ∧ Evicted t (.check 0) u 0 ∧
    TouchedBefore u.history.touched 0 2 := by
  have hsome : ((exec (observeStep id) twoEntries batchReady).bind fun t =>
      observeStep id t (.check 0)).any (fun u => decide (0 ∉ u.tasks.cache.entries.dict.keys ∧
        2 ∈ u.tasks.cache.entries.dict.keys ∧ ∃ r ∈ capturedBy u.tasks 0, r.1 = 0 ∧
          r.2.status = .stored)) = true := by decide +kernel
  obtain ⟨u, hu, hview⟩ := (Option.any_eq_true _ _).mp hsome
  obtain ⟨t, ht, hu⟩ := Option.bind_eq_some_iff.mp hu
  obtain ⟨hgone, hkept, hstored⟩ := of_decide_eq_true hview
  have hevicted : Evicted t (.check 0) u 0 := ⟨0, rfl, hgone, .inr hstored⟩
  exact ⟨t, u, ht, hu, hevicted, (bounded_lru (exec_run ht)).2 _ u hu 0 2 hevicted hkept⟩

/-- Two further reads, a hit and a miss. -/
theorem counters_balance_batch : ∃ t, exec (observeStep id) twoEntries
    (batchReady ++ [.check 0, .getMany [1, 0, 1] 5 fun _ => .allValues]) = some t ∧
    t.tasks.cache.hits = 1 ∧ t.tasks.cache.misses = 1 ∧
    CountersBalance t.history t.tasks.cache := by
  have hsome : (exec (observeStep id) twoEntries (batchReady ++
      [.check 0, .getMany [1, 0, 1] 5 fun _ => .allValues])).any (fun t =>
        decide (t.tasks.cache.hits = 1 ∧ t.tasks.cache.misses = 1)) = true := by decide +kernel
  obtain ⟨t, ht, hview⟩ := (Option.any_eq_true _ _).mp hsome
  obtain ⟨hhits, hmisses⟩ := of_decide_eq_true hview
  exact ⟨t, ht, hhits, hmisses, counters_balance (exec_run ht)⟩

end Coalestra
