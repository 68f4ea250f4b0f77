import Coalestra.Orchestration.Shape

/-! # What moves store

A move changes at most one entry of one memo, and only four kinds of points do: a copy that arrives,
a collected result, an accepted payload and a stale value that is kept. What a move writes into the
cache comes from the values the frame was about to write. -/

namespace Coalestra
set_option autoImplicit false
set_option maxHeartbeats 250000

section
variable {K V : Type} [DecidableEq K]

/-! ## One runtime -/

namespace ResolutionRuntime

/-- What storing `v` for `k` makes of a runtime. -/
def Stored (r r' : ResolutionRuntime K V) (k : K) (v : SnapshotValue K V) : Prop :=
  r' = r.remember k v ∨ r' = (r.remember k v).markRefreshed k

theorem Stored.memo {r r' : ResolutionRuntime K V} {k : K} {v : SnapshotValue K V}
    (h : Stored r r' k v) : r'.memo = r.memo.set k v := by
  rcases h with rfl | rfl <;> rfl

theorem Stored.force {r r' : ResolutionRuntime K V} {k : K} {v : SnapshotValue K V}
    (h : Stored r r' k v) {j : K} (hj : j ≠ k) :
    j ∈ r'.forceRefreshKeys ↔ j ∈ r.forceRefreshKeys := by
  rcases h with rfl | rfl
  · rfl
  · rw [mem_force_markRefreshed]
    exact and_iff_left hj

theorem Stored.force_subset {r r' : ResolutionRuntime K V} {k j : K} {v : SnapshotValue K V}
    (h : Stored r r' k v) (hj : j ∈ r'.forceRefreshKeys) : j ∈ r.forceRefreshKeys := by
  rcases h with rfl | rfl
  · exact hj
  · exact (mem_force_markRefreshed.mp hj).1

theorem Stored.pinned {r r' : ResolutionRuntime K V} {k j : K} {v w : SnapshotValue K V}
    (h : Stored r r' k v) (hw : r'.pinned j = some w) : r.pinned j = some w ∨ j = k ∧ w = v := by
  rw [pinned_eq_some, h.memo, Dict.get?_set] at hw
  by_cases hj : j = k
  · rw [if_pos hj, Option.some.injEq] at hw
    exact .inr ⟨hj, hw.2.symm⟩
  · rw [if_neg hj, h.force hj] at hw
    exact .inl (pinned_eq_some.mpr hw)

/-- A pinned key stays pinned. -/
theorem Stored.pinned_grows {r r' : ResolutionRuntime K V} {k j : K} {v w : SnapshotValue K V}
    (h : Stored r r' k v) (hw : r.pinned j = some w) : ∃ w', r'.pinned j = some w' := by
  obtain ⟨hf, hw⟩ := pinned_eq_some.mp hw
  have hf' : j ∉ r'.forceRefreshKeys := fun hmem => hf (h.force_subset hmem)
  by_cases hj : j = k
  · exact ⟨v, pinned_eq_some.mpr ⟨hf', by rw [h.memo, hj, Dict.get?_set_self]⟩⟩
  · exact ⟨w, pinned_eq_some.mpr ⟨hf', by rw [h.memo, Dict.get?_set_ne _ _ hj, hw]⟩⟩

/-- A memo key stays one. -/
theorem Stored.memo_grows {r r' : ResolutionRuntime K V} {k j : K} {v : SnapshotValue K V}
    (h : Stored r r' k v) (hw : ∃ w, r.memo.get? j = some w) : ∃ w, r'.memo.get? j = some w := by
  rw [h.memo, Dict.get?_set]
  by_cases hj : j = k
  · exact ⟨v, if_pos hj⟩
  · rw [if_neg hj]
    exact hw

/-- A key that a lookup need not take to the cache: a refresh is forced, or the memo has it. -/
def Decides (r : ResolutionRuntime K V) (key : K) : Prop :=
  key ∈ r.forceRefreshKeys ∨ ∃ v, r.memo.get? key = some v

theorem Decides.not_cached {r : ResolutionRuntime K V} {key : K} (h : r.Decides key)
    (keys : List K) : key ∉ cacheKeysOf r keys := by
  intro hmem
  simp only [cacheKeysOf, List.mem_filter, Bool.and_eq_true, Bool.not_eq_true',
    Option.isNone_iff_eq_none] at hmem
  rcases h with hforce | ⟨v, hv⟩
  · rw [requiresRefresh_eq_true.mpr hforce] at hmem
    exact Bool.noConfusion hmem.2.1
  · rw [hv] at hmem
    cases hmem.2.2

/-- A forced key is given up only for a memo entry. -/
theorem Stored.decides {r r' : ResolutionRuntime K V} {k j : K} {v : SnapshotValue K V}
    (h : Stored r r' k v) (hd : r.Decides j) : r'.Decides j := by
  by_cases hj : j = k
  · exact .inr ⟨v, by rw [h.memo, hj, Dict.get?_set_self]⟩
  · exact hd.imp (h.force hj).mpr h.memo_grows

end ResolutionRuntime

/-! ## The memo -/

/-- The memo entry that a frame at this point stores when it moves on. -/
inductive Installs (b : Builder K V) (s : State K V) : Body K V → K → SnapshotValue K V → Prop
  | copied {body : Body K V} {k : K} {v : SnapshotValue K V} (h : body.installing = some (k, v)) :
      Installs b s body k v
  | collected {keys : List K} {l : ManyLocals K V} {k : K} {rest : List K} {v : SnapshotValue K V}
      (h : l.results.get? k = some (.ok v)) :
      Installs b s (.resolveMany keys l (.collecting (k :: rest))) k v
  | accepted {keys : List K} {l : OwnedLocals K V} {source : Source K} {sources : List (Source K)}
      {attempts : List (K × SourceAttempt K V)} {k : K} {rest : List K}
      {fresh : List (SnapshotValue K V)} {a : SourceAttempt K V} {v : SnapshotValue K V}
      {versions : Dict K ℕ} (ha : Dict.find attempts k = some a)
      (hh : b.harvest s.now s.revisions.length source k a = .fresh v versions) :
      Installs b s (.resolveOwned keys l (.harvesting source sources attempts (k :: rest) fresh)) k v
  | kept {keys : List K} {l : OwnedLocals K V} {k : K} {rest : List K}
      {stales : List (SnapshotValue K V)} {v : SnapshotValue K V}
      (h : l.bestStale.get? k = some v) :
      Installs b s (.resolveOwned keys l (.finishing (k :: rest) stales)) k v

theorem setRuntime_runtimes (s : Shared K V) (r : ℕ) (r' : ResolutionRuntime K V) :
    (s.setRuntime r r').runtimes = s.runtimes.set r r' := rfl

theorem schedule_runtimes (s : State K V) (key : K) (wanted : Bool) :
    (s.schedule key wanted).1.runtimes = s.runtimes ∨
      (s.schedule key wanted).1.runtimes =
        s.runtimes ++ [{ ResolutionRuntime.new with cacheStaleResults := false }] := by
  unfold State.schedule
  split
  · exact .inr rfl
  · exact .inl rfl

@[simp] theorem schedule_now (s : State K V) (key : K) (wanted : Bool) :
    (s.schedule key wanted).1.now = s.now := by
  unfold State.schedule
  split <;> rfl

@[simp] theorem schedule_cache (s : State K V) (key : K) (wanted : Bool) :
    (s.schedule key wanted).1.cache = s.cache := by
  unfold State.schedule
  split <;> rfl

@[simp] theorem reserve_now (s : State K V) (c : Scope K) (keys : List K) :
    (s.reserve c keys).2.1.now = s.now := by
  rw [reserve_shared]

@[simp] theorem reserve_cache (s : State K V) (c : Scope K) (keys : List K) :
    (s.reserve c keys).2.1.cache = s.cache := by
  rw [reserve_shared]

@[simp] theorem reserve_runtimes (s : State K V) (c : Scope K) (keys : List K) :
    (s.reserve c keys).2.1.runtimes = s.runtimes := by
  rw [reserve_shared]

variable {b : Builder K V} {s : State K V} {c : Scope K} {body : Body K V} {e : Event K V}
  {m : Step K V}

/-- A move leaves the runtimes alone, opens one for a refresh, or stores one entry. -/
theorem Move.runtimes (hm : Move b s c body e m) :
    m.shared.runtimes = s.runtimes ∨
      m.shared.runtimes =
        s.runtimes ++ [{ ResolutionRuntime.new with cacheStaleResults := false }] ∨
      ∃ k v r', Installs b s body k v ∧ (s.runtime c.runtime).Stored r' k v ∧
        m.shared.runtimes = s.runtimes.set c.runtime r' := by
  cases hm with
  | many hm =>
    cases hm with
    | hit => exact (schedule_runtimes _ _ _).imp_right .inl
    | install => exact .inr (.inr ⟨_, _, _, .copied rfl, .inl rfl, rfl⟩)
    | fallBack => exact .inr (.inr ⟨_, _, _, .copied rfl, .inl rfl, rfl⟩)
    | collectValue hr => exact .inr (.inr ⟨_, _, _, .collected hr, .inr rfl, rfl⟩)
    | reserve => exact .inl (reserve_runtimes _ _ _)
    | _ => exact .inl rfl
  | owned hm =>
    cases hm with
    | accept ha hh => exact .inr (.inr ⟨_, _, _, .accepted ha hh, .inr rfl, rfl⟩)
    | installWinner => exact .inr (.inr ⟨_, _, _, .copied rfl, .inl rfl, rfl⟩)
    | finishStale hb => exact .inr (.inr ⟨_, _, _, .kept hb, .inl rfl, rfl⟩)
    | _ => exact .inl rfl
  | work hm => cases hm <;> exact .inl rfl
  | produce hm => cases hm <;> exact .inl rfl
  | refresh hm =>
    cases hm with
    | reserve => exact .inl (reserve_runtimes _ _ _)
    | _ => exact .inl rfl

theorem runtime_append_lt {s t : Shared K V} {r : ResolutionRuntime K V}
    (h : t.runtimes = s.runtimes ++ [r]) {n : ℕ} (hn : n < s.runtimes.length) :
    t.runtime n = s.runtime n := by
  unfold Shared.runtime
  rw [h, List.getElem?_append_left hn]

/-- Behind the end of the list there is only the appended runtime. -/
theorem runtime_append_ge {s t : Shared K V} {r : ResolutionRuntime K V}
    (h : t.runtimes = s.runtimes ++ [r]) {n : ℕ} (hn : s.runtimes.length ≤ n) :
    s.runtime n = .new ∧ (t.runtime n = r ∧ n = s.runtimes.length ∨ t.runtime n = .new) := by
  unfold Shared.runtime
  rw [h, List.getElem?_append_right hn, List.getElem?_eq_none hn]
  refine ⟨rfl, ?_⟩
  rcases Nat.eq_or_lt_of_le hn with rfl | hlt
  · exact .inl ⟨by simp, rfl⟩
  · right
    rw [List.getElem?_eq_none]
    · rfl
    · rw [List.length_singleton]
      omega

theorem runtime_set {s t : Shared K V} {r : ℕ} {r' : ResolutionRuntime K V}
    (h : t.runtimes = s.runtimes.set r r') (n : ℕ) :
    n = r ∧ r < s.runtimes.length ∧ t.runtime n = r' ∨ t.runtime n = s.runtime n := by
  unfold Shared.runtime
  rw [h, List.getElem?_set]
  split
  · rename_i hn
    subst hn
    split
    · exact .inl ⟨rfl, ‹_›, rfl⟩
    · rename_i hlt
      right
      rw [List.getElem?_eq_none (by omega)]
  · exact .inr rfl

/-- A runtime after a move: as before, with one entry stored, or the empty one of a refresh. -/
theorem Move.runtime (hm : Move b s c body e m) (n : ℕ) :
    m.shared.runtime n = s.runtime n ∨
      (n = c.runtime ∧ ∃ k v, Installs b s body k v ∧
        (s.runtime n).Stored (m.shared.runtime n) k v) ∨
      s.runtimes.length ≤ n ∧ s.runtime n = .new ∧ ∀ k, (m.shared.runtime n).memo.get? k = none := by
  rcases hm.runtimes with h | h | ⟨k, v, r', hi, hstored, h⟩
  · left
    unfold Shared.runtime
    rw [h]
  · rcases Nat.lt_or_ge n s.runtimes.length with hn | hn
    · exact .inl (runtime_append_lt h hn)
    · obtain ⟨hnew, ht⟩ := runtime_append_ge h hn
      refine .inr (.inr ⟨hn, hnew, fun k => ?_⟩)
      rcases ht with ⟨ht, _⟩ | ht <;> rw [ht] <;> rfl
  · rcases runtime_set h n with ⟨rfl, _, ht⟩ | ht
    · exact .inr (.inl ⟨rfl, k, v, hi, ht ▸ hstored⟩)
    · exact .inl ht

theorem Move.memo_cases (hm : Move b s c body e m) {n : ℕ} {k : K} {v : SnapshotValue K V}
    (h : (m.shared.runtime n).memo.get? k = some v) :
    (s.runtime n).memo.get? k = some v ∨ n = c.runtime ∧ Installs b s body k v := by
  rcases hm.runtime n with hr | ⟨hn, j, w, hi, hst⟩ | ⟨_, _, hnone⟩
  · rw [hr] at h
    exact .inl h
  · rw [hst.memo, Dict.get?_set] at h
    split at h
    · rename_i hk
      cases h
      subst hk
      exact .inr ⟨hn, hi⟩
    · exact .inl h
  · rw [hnone k] at h
    cases h

theorem Move.pinned_cases (hm : Move b s c body e m) {n : ℕ} {k : K} {v : SnapshotValue K V}
    (h : (m.shared.runtime n).pinned k = some v) :
    (s.runtime n).pinned k = some v ∨ n = c.runtime ∧ Installs b s body k v := by
  rcases hm.runtime n with hr | ⟨hn, j, w, hi, hst⟩ | ⟨_, _, hnone⟩
  · rw [hr] at h
    exact .inl h
  · rcases hst.pinned h with h | ⟨rfl, rfl⟩
    · exact .inl h
    · exact .inr ⟨hn, hi⟩
  · rw [ResolutionRuntime.pinned_eq_some, hnone k] at h
    cases h.2

/-- What storing an entry keeps, and what an empty runtime does not have, a move keeps. -/
theorem Move.runtime_keeps (hm : Move b s c body e m) {P : ResolutionRuntime K V → Prop}
    (hnew : ¬ P .new)
    (hstored : ∀ {r r' : ResolutionRuntime K V} {k : K} {v : SnapshotValue K V},
      r.Stored r' k v → P r → P r')
    {n : ℕ} (h : P (s.runtime n)) : P (m.shared.runtime n) := by
  rcases hm.runtime n with hr | ⟨_, j, w, _, hst⟩ | ⟨_, hempty, _⟩
  · rw [hr]
    exact h
  · exact hstored hst h
  · rw [hempty] at h
    exact absurd h hnew

theorem Move.runtimes_length (hm : Move b s c body e m) :
    s.runtimes.length ≤ m.shared.runtimes.length := by
  rcases hm.runtimes with h | h | ⟨_, _, _, _, _, h⟩ <;> rw [h] <;> simp

/-- An interrupted or answered await leaves the shared state alone. -/
theorem Move.shared_of_ne_go (hm : Move b s c body e m) (he : e ≠ .go) : m.shared = s.toShared := by
  cases hm with
  | many hm => cases hm <;> first | rfl | exact absurd rfl he
  | owned hm => cases hm <;> first | rfl | exact absurd rfl he
  | work hm => cases hm <;> rfl
  | produce hm => cases hm <;> exact absurd rfl he
  | refresh hm => cases hm <;> first | rfl | exact absurd rfl he

/-- `_resolve_many` stores what it is about to store. -/
theorem ManyMove.stored {keys : List K} {l : ManyLocals K V} {p : ManyPhase K V} {k : K}
    {v : SnapshotValue K V} (hm : ManyMove b s c keys l p .go m)
    (hi : Installs b s (.resolveMany keys l p) k v) (hr : c.runtime < s.runtimes.length) :
    (m.shared.runtime c.runtime).memo.get? k = some v := by
  have hset : ∀ r : ResolutionRuntime K V, r.memo.get? k = some v →
      ((s.toShared.setRuntime c.runtime r).runtime c.runtime).memo.get? k = some v := by
    intro r hk
    rw [Shared.runtime, setRuntime_runtimes, List.getElem?_set_self hr]
    exact hk
  cases hi with
  | copied hcopy =>
    cases hm with
    | install =>
      cases hcopy
      exact hset _ (Dict.get?_set_self _ _ _)
    | fallBack =>
      cases hcopy
      exact hset _ (Dict.get?_set_self _ _ _)
    | _ => cases hcopy
  | collected hres =>
    cases hm with
    | collectValue hval =>
      rw [hval] at hres
      cases hres
      exact hset _ (Dict.get?_set_self _ _ _)
    | collectMissing hnone =>
      rw [hnone] at hres
      cases hres
    | collectError herr =>
      rw [herr] at hres
      cases hres
    | collectStale herr =>
      rw [herr] at hres
      cases hres

/-- A started frame runs in the runtime of its parent, except for a refresh. -/
theorem Move.spawn_runtime (hm : Move b s c body e m) {g : Frame K V} (hg : m.spawn = some g) :
    g.scope.runtime = c.runtime ∨
      g.scope.runtime = s.runtimes.length ∧ s.runtimes.length < m.shared.runtimes.length ∧
        ∃ key, g = ⟨⟨none, s.runtimes.length, [], [], none⟩, .refresh key .reserving⟩ := by
  have hreserve : ∀ keys, (s.reserve c keys).2.2 = some g → g.scope.runtime = c.runtime := by
    intro keys hr
    obtain ⟨owned, _, _, rfl⟩ := reserve_spawn_eq hr
    rfl
  cases hm with
  | many hm =>
    cases hm with
    | delegate => cases hg; exact .inl rfl
    | @hit key _ _ _ _ wanted _ _ =>
      refine .inr ?_
      have hruntimes : s.runtimes.length < (s.schedule key wanted).1.runtimes.length := by
        change (s.schedule key wanted).2 = some g at hg
        unfold State.schedule at hg ⊢
        split at hg
        · rename_i hw
          rw [if_pos hw]
          simp
        · cases hg
      rw [schedule_spawn hg]
      exact ⟨rfl, hruntimes, key, rfl⟩
    | reserve => exact .inl (hreserve _ hg)
    | _ => cases hg
  | owned hm =>
    cases hm with
    | dispatch => cases hg; exact .inl rfl
    | _ => cases hg
  | work hm =>
    cases hm with
    | depend => cases hg; exact .inl rfl
    | _ => cases hg
  | produce hm =>
    cases hm with
    | start => cases hg; exact .inl rfl
    | _ => cases hg
  | refresh hm =>
    cases hm with
    | reserve => exact .inl (hreserve _ hg)
    | _ => cases hg

/-! ## The cache -/

theorem get?_foldl_put (copier : V → V) (k : K) :
    ∀ (vs : List (SnapshotValue K V)) (e : CacheEntries K V) {w : SnapshotValue K V},
      (vs.foldl (fun e v => e.put (v.clone copier)) e).get? k = some w →
        e.get? k = some w ∨ ∃ v ∈ vs, v.key = k ∧ w = v.clone copier
  | [], _, _, h => .inl h
  | v :: vs, e, w, h => by
      rw [List.foldl_cons] at h
      rcases get?_foldl_put copier k vs _ h with h | ⟨v', hv', hk, hw⟩
      · rw [CacheEntries.get?_put] at h
        split at h
        · rename_i hk
          rw [Option.some.injEq] at h
          exact .inr ⟨v, List.mem_cons_self, hk.symm, h.symm⟩
        · exact .inl h
      · exact .inr ⟨v', List.mem_cons_of_mem _ hv', hk, hw⟩

/-- `set_many` prepares a copy of every candidate. -/
theorem foldl_put_isSome (copier : V → V) (k : K) :
    ∀ (vs : List (SnapshotValue K V)) (e : CacheEntries K V),
      ((e.get? k).isSome ∨ ∃ v ∈ vs, v.key = k) →
        ∃ w, (vs.foldl (fun e v => e.put (v.clone copier)) e).get? k = some w
  | [], e, h => by
      rcases h with h | ⟨v, hv, _⟩
      · exact Option.isSome_iff_exists.mp h
      · cases hv
  | v :: vs, e, h => by
      rw [List.foldl_cons]
      refine foldl_put_isSome copier k vs _ ?_
      rw [CacheEntries.get?_put]
      by_cases hk : k = (v.clone copier).key
      · rw [if_pos hk]
        exact .inl rfl
      · rw [if_neg hk]
        rcases h with h | ⟨v', hv', hkey⟩
        · exact .inl h
        · rcases List.mem_cons.mp hv' with rfl | hv'
          · exact absurd hkey.symm hk
          · exact .inr ⟨v', hv', hkey⟩

/-- Candidates are among the values of the batch. -/
theorem mem_of_selected : ∀ (vs : List (SnapshotValue K V)) (e : CacheEntries K V) {k : K}
    {w : SnapshotValue K V}, (vs.foldl (fun selected value =>
      match selected.get? value.key with
      | none => selected.put value
      | some current =>
        if AsyncMemoryCache.candidatePrecedes current value then selected.put value
        else selected) e).get? k = some w → e.get? k = some w ∨ w ∈ vs
  | [], _, _, _, h => .inl h
  | v :: vs, e, k, w, h => by
      rw [List.foldl_cons] at h
      have hput : (e.put v).get? k = some w → e.get? k = some w ∨ w ∈ v :: vs := by
        intro h
        rw [CacheEntries.get?_put] at h
        split at h
        · rw [Option.some.injEq] at h
          exact .inr (h ▸ List.mem_cons_self)
        · exact .inl h
      rcases mem_of_selected vs _ h with h | h
      · split at h
        · exact hput h
        · split at h
          · exact hput h
          · exact .inl h
      · exact .inr (List.mem_cons_of_mem _ h)

/-- One batch of `set_many`: every candidate is a clone of a written value, and is stored as its
prepared copy or leaves the old entry. -/
theorem setMany_batch (b : Builder K V) (c : AsyncMemoryCache K V)
    (values : List (SnapshotValue K V)) :
    ∃ (candidates : List (SnapshotValue K V)) (prepared : CacheEntries K V)
      (d : AsyncMemoryCache K V),
      b.setMany c values =
        (candidates.map fun v => (v.key, c.capture false false prepared v), d) ∧
      (∀ v ∈ candidates, ∃ v₀ ∈ values, v = v₀.clone b.copier) ∧
      (∀ k w, k ∉ candidates.map SnapshotValue.key → d.get? k = some w → c.get? k = some w) ∧
      (∀ v ∈ candidates, ∀ w, d.get? v.key = some w →
        w = (c.capture false false prepared v).value) ∧
      ∀ v ∈ candidates,
        ((c.capture false false prepared v).status = .stored ∧
          (c.capture false false prepared v).value = v.clone b.copier) ∨
        ((c.capture false false prepared v).status ≠ .stored ∧
          c.get? v.key = some (c.capture false false prepared v).value) := by
  set candidates := (AsyncMemoryCache.selectCandidates
    (values.map (·.clone b.copier))).dict.values with hcandidates
  set prepared := candidates.foldl (fun e v => e.put (v.clone b.copier)) CacheEntries.empty
    with hprepared
  have hmem : ∀ v ∈ candidates, ∃ v₀ ∈ values, v = v₀.clone b.copier := by
    intro v hv
    rw [hcandidates, CacheEntries.mem_values] at hv
    rcases mem_of_selected _ _ hv with h | h
    · cases h
    · obtain ⟨v₀, hv₀, rfl⟩ := List.mem_map.mp h
      exact ⟨v₀, hv₀, rfl⟩
  have hnodup : (candidates.map SnapshotValue.key).Nodup := by
    rw [hcandidates, CacheEntries.map_key_values]
    exact Dict.nodup _
  have hprep : c.Prepared false false prepared candidates :=
    fun v hv _ => foldl_put_isSome b.copier v.key candidates .empty (.inr ⟨v, hv, rfl⟩)
  obtain ⟨d, hd, hother, hself⟩ := AsyncMemoryCache.commitLocked_spec hnodup hprep
  have hset : b.setMany c values =
      (candidates.map fun v => (v.key, c.capture false false prepared v), d) := by
    unfold Builder.setMany
    dsimp only
    rw [← hcandidates, ← hprepared, hd]
    rfl
  refine ⟨candidates, prepared, d, hset, hmem, hother, hself, fun v hv => ?_⟩
  unfold AsyncMemoryCache.capture
  dsimp only
  by_cases hs : AsyncMemoryCache.writeStatus (c.get? v.key) v false false = .stored
  · left
    obtain ⟨w, hw⟩ := hprep v hv hs
    refine ⟨hs, ?_⟩
    rw [if_pos hs, hw, Option.getD_some]
    rcases get?_foldl_put b.copier v.key _ _ hw with h | ⟨v', hv', hk, rfl⟩
    · cases h
    · rw [hcandidates, CacheEntries.mem_values] at hv hv'
      rw [hk, hv, Option.some.injEq] at hv'
      rw [hv']
  · right
    refine ⟨hs, ?_⟩
    rw [if_neg hs]
    cases hc : c.get? v.key with
    | none =>
      rw [hc] at hs
      exact absurd rfl hs
    | some p => rfl

/-- What the cache holds after `set_many`: an old entry, or a stored copy of a written value. -/
theorem setMany_get? (b : Builder K V) (c : AsyncMemoryCache K V)
    (values : List (SnapshotValue K V)) {k : K} {w : SnapshotValue K V}
    (hw : (b.setMany c values).2.get? k = some w) : c.get? k = some w ∨
      ∃ v ∈ values, v.key = k ∧ w = (v.clone b.copier).clone b.copier := by
  obtain ⟨candidates, prepared, d, hset, hmem, hother, hself, hcapture⟩ :=
    setMany_batch b c values
  rw [hset] at hw
  by_cases hk : k ∈ candidates.map SnapshotValue.key
  · obtain ⟨v, hv, rfl⟩ := List.mem_map.mp hk
    have hval := hself v hv w hw
    rcases hcapture v hv with ⟨_, hst⟩ | ⟨_, hold⟩
    · obtain ⟨v₀, hv₀, rfl⟩ := hmem v hv
      exact .inr ⟨v₀, hv₀, rfl, by rw [hval, hst]⟩
    · rw [← hval] at hold
      exact .inl hold
  · exact .inl (hother k w hk hw)

omit [DecidableEq K] in
theorem writeStatus_lower {previous : Option (SnapshotValue K V)} {v : SnapshotValue K V}
    (h : AsyncMemoryCache.writeStatus previous v false false = .ignoredLowerAuthority) :
    ∃ p, previous = some p ∧ v.authorityRank < p.authorityRank := by
  unfold AsyncMemoryCache.writeStatus at h
  split at h
  · cases h
  · rename_i p
    rw [if_neg Bool.false_ne_true] at h
    split at h
    · rename_i hrank
      exact ⟨p, rfl, hrank⟩
    · split at h
      · cases h
      · split at h
        · cases h
        · split at h <;> cases h

/-- A candidate that was not stored is compared with the entry found there; one of lower authority
was written with a lower rank. -/
theorem setMany_ignored (b : Builder K V) (c : AsyncMemoryCache K V)
    (values : List (SnapshotValue K V)) {k : K} {r : AsyncMemoryCache.CapturedWriteResult K V}
    (hr : Dict.find (b.setMany c values).1 k = some r) (hst : r.status ≠ .stored) :
    c.get? k = some r.value ∧ (r.status = .ignoredLowerAuthority →
      ∃ v ∈ values, v.key = k ∧ v.authorityRank < r.value.authorityRank) := by
  obtain ⟨candidates, prepared, d, hset, hmem, _, _, hcapture⟩ := setMany_batch b c values
  rw [hset] at hr
  obtain ⟨v, hv, he⟩ := List.mem_map.mp (Dict.mem_of_find hr)
  rw [Prod.mk.injEq] at he
  obtain ⟨rfl, rfl⟩ := he
  rcases hcapture v hv with ⟨hstored, _⟩ | ⟨_, hold⟩
  · exact absurd hstored hst
  · refine ⟨hold, fun hlow => ?_⟩
    obtain ⟨p, hp, hrank⟩ := writeStatus_lower hlow
    obtain ⟨v₀, hv₀, rfl⟩ := hmem v hv
    rw [hold, Option.some.injEq] at hp
    rw [← hp] at hrank
    exact ⟨v₀, hv₀, rfl, hrank⟩

/-- The values that a frame at this point is about to write into the cache. -/
def Body.writing : Body K V → List (SnapshotValue K V)
  | .resolveOwned _ _ (.writing _ fresh) => fresh
  | .resolveOwned _ _ (.staleWriting stales) => stales
  | _ => []

/-- A move adds only copies of written values to the cache. -/
theorem Move.cache_cases (hm : Move b s c body e m) {k : K} {w : SnapshotValue K V}
    (h : m.shared.cache.get? k = some w) : s.cache.get? k = some w ∨
      ∃ v ∈ body.writing, v.key = k ∧ w = (v.clone b.copier).clone b.copier := by
  cases hm with
  | many hm =>
    cases hm with
    | read => exact .inl (AsyncMemoryCache.getManyLocked_within _ _ _ _ _ _ h)
    | hit => exact .inl (schedule_cache s _ _ ▸ h)
    | reserve => exact .inl (reserve_cache s c _ ▸ h)
    | _ => exact .inl h
  | owned hm =>
    cases hm with
    | write => exact setMany_get? b s.cache _ h
    | writeStale => exact setMany_get? b s.cache _ h
    | _ => exact .inl h
  | work hm => cases hm <;> exact .inl h
  | produce hm => cases hm <;> exact .inl h
  | refresh hm =>
    cases hm with
    | reserve => exact .inl (reserve_cache s c _ ▸ h)
    | _ => exact .inl h

/-! ## The clock -/

/-- Only a tick moves the clock. -/
theorem Move.now (hm : Move b s c body e m) : m.shared.now = s.now := by
  cases hm with
  | many hm =>
    cases hm with
    | hit => exact schedule_now s _ _
    | reserve => exact reserve_now s c _
    | _ => rfl
  | owned hm => cases hm <;> rfl
  | work hm => cases hm <;> rfl
  | produce hm => cases hm <;> rfl
  | refresh hm =>
    cases hm with
    | reserve => exact reserve_now s c _
    | _ => rfl

/-! ## Runs -/

/-- No frame disappears. -/
theorem Stepped.frames_length {t : State K V} {l : Label K V} (h : Stepped b s l t) :
    s.frames.length ≤ t.frames.length := by
  cases h with
  | run => simp [State.apply]
  | call => simp
  | _ => exact le_rfl

/-- No runtime disappears. -/
theorem Stepped.runtimes_length {t : State K V} {l : Label K V} (h : Stepped b s l t) :
    s.runtimes.length ≤ t.runtimes.length := by
  cases h with
  | run _ hm => exact hm.runtimes_length
  | openRuntime => simp
  | _ => exact le_rfl

/-- Every frame runs in an open runtime. -/
def RuntimesOpen (s : State K V) : Prop :=
  ∀ i f, s.frame? i = some f → f.scope.runtime < s.runtimes.length

theorem Stepped.runtimesOpen {t : State K V} {l : Label K V} (h : Stepped b s l t)
    (hs : RuntimesOpen s) : RuntimesOpen t := by
  intro i f hi
  cases h with
  | @run j e g m hg hm =>
    have hlen := hm.runtimes_length
    show f.scope.runtime < m.shared.runtimes.length
    rcases frame?_apply_cases hg hi with ⟨rfl, rfl⟩ | ⟨rfl, hsp⟩ | ⟨_, hf⟩
    · exact lt_of_lt_of_le (hs _ g hg) hlen
    · rcases hm.spawn_runtime hsp with hr | ⟨hr, hlt, _⟩
      · rw [hr]
        exact lt_of_lt_of_le (hs _ g hg) hlen
      · rw [hr]
        exact hlt
    · exact lt_of_lt_of_le (hs _ f hf) hlen
  | tick => exact hs i f hi
  | openRuntime =>
    have := hs i f hi
    simp only [List.length_append, List.length_singleton]
    omega
  | call hr =>
    rcases frame?_append_cases hi with hf | ⟨_, rfl⟩
    · exact hs i f hf
    · exact hr
  | external => exact hs i f hi

/-- What a move keeps of a runtime, every step keeps. -/
theorem Stepped.runtime_keeps {t : State K V} {l : Label K V} (h : Stepped b s l t)
    {P : ResolutionRuntime K V → Prop} (hnew : ¬ P .new)
    (hstored : ∀ {r r' : ResolutionRuntime K V} {k : K} {v : SnapshotValue K V},
      r.Stored r' k v → P r → P r')
    {n : ℕ} (hp : P (s.runtime n)) : P (t.runtime n) := by
  cases h with
  | run hf hm => exact hm.runtime_keeps hnew hstored hp
  | @openRuntime r _ =>
    rcases Nat.lt_or_ge n s.runtimes.length with hn | hn
    · rw [runtime_append_lt (s := s.toShared) (r := r) rfl hn]
      exact hp
    · rw [(runtime_append_ge (s := s.toShared) (t := { s.toShared with
        runtimes := s.runtimes ++ [r] }) rfl hn).1] at hp
      exact absurd hp hnew
  | _ => exact hp

/-- Pinned keys stay pinned along every step. -/
theorem Stepped.pinned_grows {t : State K V} {l : Label K V} (h : Stepped b s l t) {n : ℕ} {k : K}
    {v : SnapshotValue K V} (hp : (s.runtime n).pinned k = some v) :
    ∃ w, (t.runtime n).pinned k = some w :=
  h.runtime_keeps (P := fun r => ∃ w, r.pinned k = some w) nofun
    (fun hst ⟨_, hw⟩ => hst.pinned_grows hw) ⟨v, hp⟩

/-- Memo keys stay so. -/
theorem Stepped.memo_grows {t : State K V} {l : Label K V} (h : Stepped b s l t) {n : ℕ} {k : K}
    (hp : ∃ v, (s.runtime n).memo.get? k = some v) : ∃ w, (t.runtime n).memo.get? k = some w :=
  h.runtime_keeps (P := fun r => ∃ w, r.memo.get? k = some w) nofun
    (fun hst hw => hst.memo_grows hw) hp

/-- No lookup of runtime `n` ever takes a decided key to the cache. -/
theorem Stepped.decides {t : State K V} {l : Label K V} (h : Stepped b s l t) {n : ℕ} {k : K}
    (hp : (s.runtime n).Decides k) : (t.runtime n).Decides k :=
  h.runtime_keeps (P := fun r => r.Decides k) (by rintro (h | ⟨w, h⟩) <;> cases h)
    (fun hst hd => hst.decides hd) hp

/-- A runtime that a step opens for one of its frames pins nothing. -/
theorem Stepped.pinned_new {t : State K V} {l : Label K V} (h : Stepped b s l t)
    (hs : RuntimesOpen s) {i : ℕ} {f : Frame K V} (hf : t.frame? i = some f)
    (hr : s.runtimes.length ≤ f.scope.runtime) (k : K) :
    (t.runtime f.scope.runtime).pinned k = none := by
  cases h with
  | @run j e g m hg hm =>
    show (m.shared.runtime f.scope.runtime).pinned k = none
    rcases hm.runtime f.scope.runtime with hsame | ⟨hown, _⟩ | ⟨_, _, hnone⟩
    · rw [hsame, Shared.runtime, List.getElem?_eq_none hr]
      rfl
    · exact absurd (hs j g hg) (not_lt.mpr (hown ▸ hr))
    · rw [ResolutionRuntime.pinned, hnone k]
      split <;> rfl
  | call hlt =>
    rcases frame?_append_cases hf with hf | ⟨_, rfl⟩
    · exact absurd (hs i f hf) (not_lt.mpr hr)
    · exact absurd hlt (not_lt.mpr hr)
  | _ => exact absurd (hs i f hf) (not_lt.mpr hr)

end
end Coalestra
