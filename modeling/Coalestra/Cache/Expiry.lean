import Coalestra.Cache.Currency

/-! # Reads and lazy expiry

`get_many` removes what it finds expired or invalid, and the dependency check looks at what is
physically there. What a read answers is therefore fixed by the entries, the time and the policies
exactly when no value that may be returned rests on an entry past its own stale window. -/

namespace Coalestra
set_option autoImplicit false
set_option maxHeartbeats 250000

open Relation

namespace AsyncMemoryCache
variable {K V : Type} [DecidableEq K]

/-- What a caller sees of a lookup, its age apart. -/
def visible (lookup : CacheLookup K V) : Option (SnapshotValue K V) × Bool × Bool :=
  (lookup.value, lookup.fresh, lookup.usableStale)

/-- Calls of `get_many` at one time, one for each batch. -/
def readBatches (now : ℚ) (policies : K → FreshnessPolicy) :
    List (List K) → AsyncMemoryCache K V → List (K × CacheLookup K V) × AsyncMemoryCache K V
  | [], c => ([], c)
  | batch :: batches, c =>
    let first := c.getMany now policies batch
    let rest := readBatches now policies batches first.2
    (first.1 ++ rest.1, rest.2)

/-- The reads, with or without a `prune` before them. -/
def readAfter (c : AsyncMemoryCache K V) (now : ℚ) (policies : K → FreshnessPolicy) (pruned : Bool)
    (batches : List (List K)) : List (K × CacheLookup K V) :=
  (readBatches now policies batches (if pruned then c.prune now policies else c)).1

/-- Every key has one answer, in whatever batches and order it is read. -/
def ReadsAgree (c : AsyncMemoryCache K V) (now : ℚ) (policies : K → FreshnessPolicy) : Prop :=
  ∀ (pruned pruned' : Bool) (batches batches' : List (List K)) (k : K)
    (lookup lookup' : CacheLookup K V),
    (k, lookup) ∈ c.readAfter now policies pruned batches →
    (k, lookup') ∈ c.readAfter now policies pruned' batches' →
    visible lookup = visible lookup'

/-- `age > max_stale_seconds` under the policy of the value's key. -/
def PastWindow (now : ℚ) (policies : K → FreshnessPolicy) (v : SnapshotValue K V) : Prop :=
  (policies v.key).maxStaleSeconds < (ageAt now v.observedAt : WithTop ℚ)

/-- An entry that a read may return. -/
structure Live (c : AsyncMemoryCache K V) (now : ℚ) (policies : K → FreshnessPolicy)
    (v : SnapshotValue K V) : Prop where
  stored : c.get? v.key = some v
  current : c.entries.Current v
  inWindow : ¬ PastWindow now policies v

/-- No entry in the closure of a live entry is past its own window. -/
def ClosuresInWindow (c : AsyncMemoryCache K V) (now : ℚ) (policies : K → FreshnessPolicy) : Prop :=
  ∀ v w, c.Live now policies v → TransGen c.entries.DependsOn v w → ¬ PastWindow now policies w

/-! ## One lookup -/

theorem lookupLocked_hit {c : AsyncMemoryCache K V} {now : ℚ} {policies : K → FreshnessPolicy}
    {v : SnapshotValue K V} (h : c.Live now policies v) :
    (c.lookupLocked now (policies v.key) v.key).1 =
      ⟨some v, decide ((ageAt now v.observedAt : WithTop ℚ) ≤ (policies v.key).ttlSeconds), true,
        some (ageAt now v.observedAt)⟩ := by
  have hdep : c.dependenciesCurrent v ≠ false := by
    rw [(dependenciesCurrent_iff h.stored).mpr h.current]
    decide
  have hmax := h.inWindow
  rw [PastWindow] at hmax
  unfold lookupLocked
  simp only [h.stored, if_neg hdep, if_neg hmax]
  by_cases httl : (ageAt now v.observedAt : WithTop ℚ) ≤ (policies v.key).ttlSeconds
  · simp [httl]
  · simp [httl]

/-- One turn removes nothing but an entry of its own key that is not live. -/
theorem lookupLocked_keeps {c : AsyncMemoryCache K V} {now : ℚ} {policies : K → FreshnessPolicy}
    {k : K} {v : SnapshotValue K V} (hv : c.get? v.key = some v)
    (h : v.key = k → c.Live now policies v) :
    (c.lookupLocked now (policies k) k).2.get? v.key = some v := by
  by_cases hk : v.key = k
  · subst hk
    obtain ⟨_, hmiss | ⟨w, hw, _, _, _, hkeep⟩⟩ :=
      c.lookupLocked_cases now (policies v.key) v.key
    · rw [lookupLocked_hit (h rfl)] at hmiss
      cases hmiss.1
    · rw [hkeep, hv]
  · unfold lookupLocked
    have hpop : (c.entries.pop k).get? v.key = some v := by
      rw [CacheEntries.get?_pop, if_neg hk]
      exact hv
    have htouch : (c.entries.touch k).get? v.key = some v := by
      rw [CacheEntries.get?_touch]
      exact hv
    cases c.get? k with
    | none => exact hv
    | some w =>
      simp only
      by_cases hdep : c.dependenciesCurrent w = false
      · rw [if_pos hdep]
        exact hpop
      rw [if_neg hdep]
      by_cases hmax : (policies k).maxStaleSeconds < (ageAt now w.observedAt : WithTop ℚ)
      · rw [if_pos hmax]
        exact hpop
      rw [if_neg hmax]
      by_cases httl : (ageAt now w.observedAt : WithTop ℚ) ≤ (policies k).ttlSeconds
      · rw [if_pos httl]
        exact htouch
      · rw [if_neg httl]
        exact htouch

/-! ## Reads over fewer entries -/

/-- What reads and a `prune` leave: fewer entries, with all the live ones. -/
structure Reduced (now : ℚ) (policies : K → FreshnessPolicy) (c d : AsyncMemoryCache K V) :
    Prop where
  within : d.entries.Within c.entries
  keeps : ∀ v, c.Live now policies v → d.get? v.key = some v

/-- The answer the entries of `c` give for `k`. -/
def AnswerOf (c : AsyncMemoryCache K V) (now : ℚ) (policies : K → FreshnessPolicy) (k : K)
    (lookup : CacheLookup K V) : Prop :=
  (∃ v, c.Live now policies v ∧ v.key = k ∧ visible lookup =
    (some v, decide ((ageAt now v.observedAt : WithTop ℚ) ≤ (policies k).ttlSeconds), true)) ∨
  ((∀ v, c.Live now policies v → v.key ≠ k) ∧ visible lookup = (none, false, false))

theorem AnswerOf.unique {c : AsyncMemoryCache K V} {now : ℚ} {policies : K → FreshnessPolicy}
    {k : K} {lookup lookup' : CacheLookup K V} (h : c.AnswerOf now policies k lookup)
    (h' : c.AnswerOf now policies k lookup') : visible lookup = visible lookup' := by
  rcases h with ⟨v, hv, hk, heq⟩ | ⟨hnone, heq⟩
  · rcases h' with ⟨w, hw, hk', heq'⟩ | ⟨hnone', _⟩
    · have hsame : v = w := by
        have hget := hv.stored
        rw [hk, ← hk', hw.stored, Option.some.injEq] at hget
        exact hget.symm
      rw [heq, heq', hsame]
    · exact absurd hk (hnone' v hv)
  · rcases h' with ⟨w, hw, hk', _⟩ | ⟨_, heq'⟩
    · exact absurd hk' (hnone w hw)
    · rw [heq, heq']

section
variable {now : ℚ} {policies : K → FreshnessPolicy} {c d : AsyncMemoryCache K V}

theorem Reduced.refl (c : AsyncMemoryCache K V) : Reduced now policies c c :=
  ⟨CacheEntries.Within.refl _, fun _ hv => hv.stored⟩

theorem Live.of_dependsOn (hwindow : c.ClosuresInWindow now policies) {v w : SnapshotValue K V}
    (hv : c.Live now policies v) (hw : TransGen c.entries.DependsOn v w) :
    c.Live now policies w :=
  ⟨hv.current.closure_get? (CacheEntries.Within.refl _) hw,
    hv.current.of_reaches hw.to_reflTransGen, hwindow v w hv hw⟩

/-- The live entries are live among the entries that are left. -/
theorem Reduced.live (h : Reduced now policies c d) (hwindow : c.ClosuresInWindow now policies)
    {v : SnapshotValue K V} (hv : c.Live now policies v) : d.Live now policies v where
  stored := h.keeps v hv
  current := hv.current.of_closure fun w hw => h.keeps w (hv.of_dependsOn hwindow hw)
  inWindow := hv.inWindow

theorem Reduced.lookup (h : Reduced now policies c d) (hwindow : c.ClosuresInWindow now policies)
    (k : K) :
    c.AnswerOf now policies k (d.lookupLocked now (policies k) k).1 ∧
    Reduced now policies c (d.lookupLocked now (policies k) k).2 := by
  obtain ⟨hw, hcases⟩ := d.lookupLocked_cases now (policies k) k
  refine ⟨?_, hw.trans h.within, ?_⟩
  · rcases hcases with ⟨hvalue, hfresh, husable⟩ | ⟨v, hget, heq, hmax, hdep, _⟩
    · refine .inr ⟨fun v hv hk => ?_, by rw [visible, hvalue, hfresh, husable]⟩
      subst hk
      rw [lookupLocked_hit (h.live hwindow hv)] at hvalue
      cases hvalue
    · have hkey : v.key = k := d.entries.keyed hget
      subst hkey
      have hlive : c.Live now policies v := by
        refine ⟨h.within _ _ hget, ?_, not_lt.mpr hmax⟩
        exact ((dependenciesCurrent_iff hget).mp hdep).of_within h.within
      exact .inl ⟨v, hlive, rfl, by rw [heq]; rfl⟩
  · intro v hv
    have hd := h.live hwindow hv
    exact lookupLocked_keeps hd.stored fun _ => hd

theorem Reduced.getMany (hwindow : c.ClosuresInWindow now policies) :
    ∀ (keys : List K) {d : AsyncMemoryCache K V}, Reduced now policies c d →
      (∀ k lookup, (k, lookup) ∈ (getManyLocked now policies keys d).1 →
        c.AnswerOf now policies k lookup) ∧
      Reduced now policies c (getManyLocked now policies keys d).2
  | [], d, h => ⟨by simp [getManyLocked], h⟩
  | j :: keys, d, h => by
      obtain ⟨hanswer, hnext⟩ := h.lookup hwindow j
      obtain ⟨hrest, hlast⟩ := Reduced.getMany hwindow keys hnext
      refine ⟨fun k lookup hmem => ?_, hlast⟩
      rw [getManyLocked, List.mem_cons, Prod.mk.injEq] at hmem
      rcases hmem with ⟨rfl, rfl⟩ | hmem
      · exact hanswer
      · exact hrest k lookup hmem

theorem Reduced.readBatches (hwindow : c.ClosuresInWindow now policies) :
    ∀ {batches : List (List K)} {d : AsyncMemoryCache K V}, Reduced now policies c d →
      ∀ k lookup, (k, lookup) ∈ (readBatches now policies batches d).1 →
        c.AnswerOf now policies k lookup
  | [], d, _ => by simp [AsyncMemoryCache.readBatches]
  | batch :: batches, d, h => by
      intro k lookup hmem
      obtain ⟨hanswer, hnext⟩ := Reduced.getMany hwindow (Dict.fromKeys batch) h
      rw [AsyncMemoryCache.readBatches, List.mem_append] at hmem
      rcases hmem with hmem | hmem
      · exact hanswer k lookup hmem
      · exact Reduced.readBatches hwindow hnext k lookup hmem

theorem expired_iff {k : K} :
    c.expired now policies k = true ↔ ∃ v, c.get? k = some v ∧ PastWindow now policies v := by
  unfold expired PastWindow
  cases hget : c.get? k with
  | none => simp
  | some v =>
    have hkey : v.key = k := c.entries.keyed hget
    simp [hkey]

theorem get?_prune {k : K} : (c.prune now policies).get? k =
    if c.expired now policies k then none else c.get? k := by
  change (c.entries.keep fun k => !c.expired now policies k).get? k = _
  rw [CacheEntries.get?_keep]
  cases c.expired now policies k <;> rfl

theorem reduced_prune (c : AsyncMemoryCache K V) :
    Reduced now policies c (c.prune now policies) := by
  refine ⟨CacheEntries.keep_within _ _, fun v hv => ?_⟩
  have hnot : c.expired now policies v.key ≠ true := by
    intro hexp
    obtain ⟨w, hw, hpast⟩ := expired_iff.mp hexp
    rw [hv.stored, Option.some.injEq] at hw
    exact hv.inWindow (hw ▸ hpast)
  rw [get?_prune, if_neg hnot]
  exact hv.stored

/-- What is in the closure of a value that survives `prune` survives as well. -/
theorem prune_closure {v w : SnapshotValue K V}
    (hcur : (c.prune now policies).entries.Current v)
    (hw : TransGen c.entries.DependsOn v w) : ¬ PastWindow now policies w := by
  intro hpast
  have hget : (c.prune now policies).get? w.key = some w :=
    hcur.closure_get? (CacheEntries.keep_within _ _) hw
  rw [get?_prune] at hget
  by_cases hexp : c.expired now policies w.key = true
  · rw [if_pos hexp] at hget
    cases hget
  · rw [if_neg hexp] at hget
    exact hexp (expired_iff.mpr ⟨w, hget, hpast⟩)

theorem readAfter_single (c : AsyncMemoryCache K V) (pruned : Bool) (k : K) :
    c.readAfter now policies pruned [[k]] =
      [(k, ((if pruned then c.prune now policies else c).lookupLocked now (policies k) k).1)] := by
  rfl

end

/-- The answers do not depend on the order of the keys, the batches or a `prune` before exactly when
no entry past its own stale window is in the closure of an entry that a read may return. -/
theorem reads_agree_iff (c : AsyncMemoryCache K V) (now : ℚ) (policies : K → FreshnessPolicy) :
    c.ReadsAgree now policies ↔ c.ClosuresInWindow now policies := by
  constructor
  · intro hagree v w hv hw
    have heq := hagree false true [[v.key]] [[v.key]] v.key _ _
      (by rw [readAfter_single]; exact List.mem_singleton_self _)
      (by rw [readAfter_single]; exact List.mem_singleton_self _)
    simp only [Bool.false_eq_true, if_false, if_true, visible, Prod.mk.injEq] at heq
    rw [lookupLocked_hit hv] at heq
    exact prune_closure (lookupLocked_current heq.1.symm).2 hw
  · intro hwindow pruned pruned' batches batches' k lookup lookup' h h'
    have hstart : ∀ b : Bool,
        Reduced now policies c (if b = true then c.prune now policies else c) := by
      intro b
      cases b with
      | false => exact Reduced.refl c
      | true => exact reduced_prune c
    have hanswer := Reduced.readBatches hwindow (hstart pruned) k lookup h
    have hanswer' := Reduced.readBatches hwindow (hstart pruned') k lookup' h'
    exact hanswer.unique hanswer'

end AsyncMemoryCache

/-- A derived value with a long window over a dependency that expires before it. -/
def shortLivedDependency : AsyncMemoryCache ℕ ℕ :=
  let dependency : SnapshotValue ℕ ℕ :=
    ⟨0, 7, "rest", 0, 0, 0, false, false, 0, 1, Dict.empty⟩
  let derived : SnapshotValue ℕ ℕ :=
    ⟨1, 8, "derived", 0, 0, 0, false, false, 0, 2, Dict.empty.set 0 1⟩
  let empty : AsyncMemoryCache ℕ ℕ := .new none (by simp)
  { empty with entries := (CacheEntries.empty.put dependency).put derived }

/-- Ten seconds later the dependency is past its window of one second, the derived value is not. -/
def shortLivedWindow (k : ℕ) : FreshnessPolicy :=
  if k = 0 then .blocking 1 1 (by norm_num) (by norm_num)
  else .blocking 60 60 (by norm_num) (by norm_num)

/-- The derived value is found if it is read before the dependency, and not after it. -/
theorem order_of_keys_decides :
    (shortLivedDependency.readAfter 10 shortLivedWindow false [[1, 0]]).map
        (fun read => (read.1, read.2.value.isSome)) = [(1, true), (0, false)] ∧
    (shortLivedDependency.readAfter 10 shortLivedWindow false [[0, 1]]).map
        (fun read => (read.1, read.2.value.isSome)) = [(0, false), (1, false)] ∧
    ¬ shortLivedDependency.ReadsAgree 10 shortLivedWindow := by
  have hfirst : (shortLivedDependency.readAfter 10 shortLivedWindow false [[1, 0]]).map
      (fun read => (read.1, read.2.value.isSome)) = [(1, true), (0, false)] := by decide +kernel
  have hlast : (shortLivedDependency.readAfter 10 shortLivedWindow false [[0, 1]]).map
      (fun read => (read.1, read.2.value.isSome)) = [(0, false), (1, false)] := by decide +kernel
  refine ⟨hfirst, hlast, fun hagree => ?_⟩
  have hmem : (1, true) ∈ (shortLivedDependency.readAfter 10 shortLivedWindow false [[1, 0]]).map
      (fun read => (read.1, read.2.value.isSome)) := by rw [hfirst]; simp
  have hmem' : (1, false) ∈ (shortLivedDependency.readAfter 10 shortLivedWindow false [[0, 1]]).map
      (fun read => (read.1, read.2.value.isSome)) := by rw [hlast]; simp
  obtain ⟨⟨k, lookup⟩, hl, hk⟩ := List.mem_map.mp hmem
  obtain ⟨⟨k', lookup'⟩, hl', hk'⟩ := List.mem_map.mp hmem'
  rw [Prod.mk.injEq] at hk hk'
  obtain ⟨rfl, hsome⟩ := hk
  obtain ⟨rfl, hnone⟩ := hk'
  have heq := hagree false false _ _ 1 lookup lookup' hl hl'
  rw [AsyncMemoryCache.visible, AsyncMemoryCache.visible, Prod.mk.injEq] at heq
  rw [heq.1, hnone] at hsome
  cases hsome

end Coalestra
