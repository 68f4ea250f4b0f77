import Coalestra.Cache.Memory
import Coalestra.Lib.PathCheck

/-! # Transitive currency of cached values

A cached value is current if every dependency version it records is the version of the entry under
that key, and that entry is current itself. `_dependencies_current_locked` decides this least
relation: it is the depth-first check over the recorded entries. -/

namespace Coalestra
set_option autoImplicit false
set_option maxHeartbeats 250000

open Relation

namespace CacheEntries
variable {K V : Type} [DecidableEq K]

/-- The least relation: a chain of recorded versions ends in values that record none. -/
inductive Current (e : CacheEntries K V) : SnapshotValue K V → Prop
  | intro {v : SnapshotValue K V}
      (present : ∀ d ∈ v.dependencyVersions.entries, ∃ w, e.get? d.1 = some w ∧ w.version = d.2)
      (current : ∀ d ∈ v.dependencyVersions.entries, ∀ w, e.get? d.1 = some w → Current e w) :
      Current e v

/-- `w` is the entry under a key that `v` records, in the recorded version. -/
def DependsOn (e : CacheEntries K V) (v w : SnapshotValue K V) : Prop :=
  ∃ d ∈ v.dependencyVersions.entries, e.get? d.1 = some w ∧ w.version = d.2

/-- The entries that meet the dependency versions `v` records. -/
def recorded (e : CacheEntries K V) (v : SnapshotValue K V) : List (Option (SnapshotValue K V)) :=
  v.dependencyVersions.entries.map fun d =>
    (e.get? d.1).filter fun w => decide (w.version = d.2)

theorem mem_recorded {e : CacheEntries K V} {v w : SnapshotValue K V} :
    some w ∈ e.recorded v ↔ e.DependsOn v w := by
  simp [recorded, DependsOn, List.mem_map, Option.filter_eq_some_iff]

theorem recorded_eq_nil {e : CacheEntries K V} {v : SnapshotValue K V} :
    e.recorded v = [] ↔ v.dependencyVersions.entries = [] := List.map_eq_nil_iff

theorem needs_recorded {e : CacheEntries K V} : Needs e.recorded = e.DependsOn := by
  funext v w
  exact propext mem_recorded

theorem current_iff_settled {e : CacheEntries K V} {v : SnapshotValue K V} :
    e.Current v ↔ Settled e.recorded v := by
  constructor
  · intro h
    induction h with
    | @intro v present current ih =>
      refine settled_of_next fun need hneed => ?_
      obtain ⟨d, hd, rfl⟩ := List.mem_map.mp hneed
      obtain ⟨w, hw, hver⟩ := present d hd
      exact ⟨w, by simp [hw, hver], ih d hd w hw⟩
  · intro h
    unfold Settled at h
    induction h with
    | @intro v parts hmet _ ih =>
      have hpart : ∀ d ∈ v.dependencyVersions.entries,
          ∃ w ∈ parts, e.get? d.1 = some w ∧ w.version = d.2 := by
        intro d hd
        have hmem : (e.get? d.1).filter (fun w => decide (w.version = d.2)) ∈ e.recorded v :=
          List.mem_map_of_mem hd
        rw [hmet, List.mem_map] at hmem
        obtain ⟨w, hw, heq⟩ := hmem
        have hfilter := heq.symm
        rw [Option.filter_eq_some_iff] at hfilter
        exact ⟨w, hw, hfilter.1, of_decide_eq_true hfilter.2⟩
      refine .intro ?_ ?_
      · intro d hd
        obtain ⟨w, _, hw⟩ := hpart d hd
        exact ⟨w, hw⟩
      · intro d hd w hw
        obtain ⟨x, hx, hget, _⟩ := hpart d hd
        rw [hw, Option.some.injEq] at hget
        exact hget ▸ ih x hx

theorem Current.of_dependsOn {e : CacheEntries K V} {v w : SnapshotValue K V} (h : e.Current v)
    (hw : e.DependsOn v w) : e.Current w := by
  rw [current_iff_settled] at h ⊢
  exact h.of_needs (mem_recorded.mpr hw)

theorem Current.of_reaches {e : CacheEntries K V} {v w : SnapshotValue K V} (h : e.Current v)
    (hw : ReflTransGen e.DependsOn v w) : e.Current w := by
  induction hw with
  | refl => exact h
  | tail _ hstep ih => exact ih.of_dependsOn hstep

theorem Current.acyclic {e : CacheEntries K V} {v : SnapshotValue K V} (h : e.Current v) :
    ¬ TransGen e.DependsOn v v := by
  rw [← needs_recorded]
  exact (current_iff_settled.mp h).acyclic

theorem Current.present {e : CacheEntries K V} {v : SnapshotValue K V} (h : e.Current v) :
    ∀ d ∈ v.dependencyVersions.entries, ∃ w, e.get? d.1 = some w ∧ w.version = d.2 := by
  cases h with
  | intro present _ => exact present

/-- What is current among fewer entries is current among all of them. -/
theorem Current.of_within {d e : CacheEntries K V} (hw : d.Within e) {v : SnapshotValue K V}
    (h : d.Current v) : e.Current v := by
  induction h with
  | @intro v present _ ih =>
    refine .intro ?_ ?_
    · intro p hp
      obtain ⟨w, hget, hver⟩ := present p hp
      exact ⟨w, hw _ _ hget, hver⟩
    · intro p hp w hget
      obtain ⟨x, hx, _⟩ := present p hp
      have hsame : w = x := by
        have hboth := hw _ _ hx
        rw [hget, Option.some.injEq] at hboth
        exact hboth
      exact ih p hp w (hsame ▸ hx)

/-- What is current stays current among the entries that keep its closure. -/
theorem Current.of_closure {d e : CacheEntries K V} {v : SnapshotValue K V} (h : e.Current v)
    (hkeep : ∀ w, TransGen e.DependsOn v w → d.get? w.key = some w) : d.Current v := by
  induction h with
  | @intro v present _ ih =>
    have hget : ∀ p ∈ v.dependencyVersions.entries, ∀ w, e.get? p.1 = some w → w.version = p.2 →
        d.get? p.1 = some w := by
      intro p hp w hw hver
      have hkept := hkeep w (.single ⟨p, hp, hw, hver⟩)
      rwa [e.keyed hw] at hkept
    refine .intro ?_ ?_
    · intro p hp
      obtain ⟨w, hw, hver⟩ := present p hp
      exact ⟨w, hget p hp w hw hver, hver⟩
    · intro p hp w hw
      obtain ⟨x, hx, hver⟩ := present p hp
      have hsame : w = x := by
        have hboth := hget p hp x hx hver
        rw [hw, Option.some.injEq] at hboth
        exact hboth
      subst hsame
      exact ih p hp w hx fun y hy => hkeep y (TransGen.head ⟨p, hp, hx, hver⟩ hy)

/-- The entries of the closure of a current value are where the value was found current. -/
theorem Current.closure_get? {d e : CacheEntries K V} (hw : d.Within e) {v w : SnapshotValue K V}
    (h : d.Current v) (hreach : TransGen e.DependsOn v w) : d.get? w.key = some w := by
  have hstep : ∀ {x y : SnapshotValue K V}, d.Current x → e.DependsOn x y → d.DependsOn x y := by
    intro x y hx hxy
    obtain ⟨p, hp, hget, hver⟩ := hxy
    obtain ⟨z, hz, _⟩ := hx.present p hp
    have hsame : y = z := by
      have hboth := hw _ _ hz
      rw [hget, Option.some.injEq] at hboth
      exact hboth
    exact ⟨p, hp, hsame ▸ hz, hver⟩
  have hlast : ∀ {x y : SnapshotValue K V}, d.DependsOn x y → d.get? y.key = some y := by
    intro x y hxy
    obtain ⟨p, _, hget, _⟩ := hxy
    rwa [d.keyed hget]
  have hboth : d.Current w ∧ d.get? w.key = some w := by
    induction hreach with
    | single hvw => exact ⟨h.of_dependsOn (hstep h hvw), hlast (hstep h hvw)⟩
    | tail _ hxy ih => exact ⟨ih.1.of_dependsOn (hstep ih.1 hxy), hlast (hstep ih.1 hxy)⟩
  exact hboth.2

end CacheEntries

/-! ## The check under the lock -/

namespace AsyncMemoryCache
variable {K V : Type} [DecidableEq K]

/-- `_dependencies_current_locked` with its early returns; `none` when the fuel is spent. -/
def dependenciesCurrentWithin (e : CacheEntries K V) :
    ℕ → List K → SnapshotValue K V → Option Bool :=
  pathCheck SnapshotValue.key e.recorded

theorem named_entries (e : CacheEntries K V) :
    Named SnapshotValue.key e.recorded e.dict.keys.toFinset
      (fun v => e.get? v.key = some v) where
  known := fun _ hv => List.mem_toFinset.mpr (Dict.mem_keys_of_get? hv)
  one := by
    intro v w hv hw hkey
    rw [hkey, hw, Option.some.injEq] at hv
    exact hv.symm
  needs := by
    intro v w _ hvw
    obtain ⟨p, _, hget, _⟩ := CacheEntries.mem_recorded.mp hvw
    rwa [e.keyed hget]

theorem card_keys (e : CacheEntries K V) : e.dict.keys.toFinset.card = e.size := by
  have hnodup : e.dict.keys.Nodup := e.dict.nodup
  rw [List.toFinset_card_of_nodup hnodup]
  exact List.length_map _

/-- With more fuel than there are entries the recursion ends and accepts exactly the current. -/
theorem dependenciesCurrentWithin_spec {e : CacheEntries K V} {v : SnapshotValue K V}
    (hv : e.get? v.key = some v) {fuel : ℕ} (hfuel : e.size < fuel) :
    ∃ b, dependenciesCurrentWithin e fuel [] v = some b ∧ (b = true ↔ e.Current v) := by
  have hcard : e.dict.keys.toFinset.card < fuel + ([] : List K).length := by
    rw [card_keys]
    exact hfuel
  have hpath : OnPath SnapshotValue.key e.recorded (fun v => e.get? v.key = some v) [] v := by
    simp [OnPath]
  obtain ⟨b, hb, hiff⟩ :=
    pathCheck_settled (named_entries e) (a := v) hv List.nodup_nil hpath hcard
  exact ⟨b, hb, hiff.trans CacheEntries.current_iff_settled.symm⟩

/-- Where the recursion ends within its fuel, both forms of the check agree. -/
theorem dependenciesCurrentLocked_eq {e : CacheEntries K V} :
    ∀ {fuel : ℕ} {visiting : List K} {v : SnapshotValue K V} {b : Bool},
      dependenciesCurrentWithin e fuel visiting v = some b →
        dependenciesCurrentLocked e fuel visiting v = b
  | 0, _, _, _, h => by simp [dependenciesCurrentWithin, pathCheck] at h
  | fuel + 1, visiting, v, b, h => by
      rw [dependenciesCurrentWithin, pathCheck] at h
      rw [dependenciesCurrentLocked]
      by_cases hnil : v.dependencyVersions.entries = []
      · rw [if_pos (CacheEntries.recorded_eq_nil.mpr hnil), Option.some.injEq] at h
        rw [if_pos hnil, h]
      rw [if_neg fun h => hnil (CacheEntries.recorded_eq_nil.mp h)] at h
      rw [if_neg hnil]
      by_cases hon : v.key ∈ visiting
      · rw [if_pos hon, Option.some.injEq] at h
        rw [if_pos hon, h]
      rw [if_neg hon] at h ⊢
      refine all_of_checkEach (fun d hneed => ?_) (fun d w r hneed hr => ?_) h
      · cases hget : e.get? d.1 with
        | none => rfl
        | some w =>
          rw [hget, Option.filter_some] at hneed
          split at hneed
          · cases hneed
          · rename_i hver
            exact if_pos fun heq => hver (decide_eq_true heq)
      · obtain ⟨hget, hver⟩ := Option.filter_eq_some_iff.mp hneed
        simp only [hget, of_decide_eq_true hver, ne_eq, not_true_eq_false, if_false]
        exact dependenciesCurrentLocked_eq hr

/-- What `get_many` asks about an entry is whether it is current. -/
theorem dependenciesCurrent_iff {c : AsyncMemoryCache K V} {v : SnapshotValue K V}
    (hv : c.get? v.key = some v) : c.dependenciesCurrent v = true ↔ c.entries.Current v := by
  obtain ⟨b, hb, hiff⟩ := dependenciesCurrentWithin_spec hv (Nat.lt_add_of_pos_right (Nat.succ_pos 1))
  rw [dependenciesCurrent, dependenciesCurrentLocked_eq hb]
  exact hiff

/-- A value that one turn of `get_many` returns is current among the entries it found. -/
theorem lookupLocked_current {c : AsyncMemoryCache K V} {now : ℚ} {policy : FreshnessPolicy} {k : K}
    {v : SnapshotValue K V} (h : (c.lookupLocked now policy k).1.value = some v) :
    c.get? k = some v ∧ c.entries.Current v := by
  obtain ⟨_, hmiss | ⟨w, hget, hl, _, hdep, _⟩⟩ := c.lookupLocked_cases now policy k
  · rw [hmiss.1] at h
    cases h
  · rw [hl, Option.some.injEq] at h
    subst h
    refine ⟨hget, (dependenciesCurrent_iff ?_).mp hdep⟩
    rwa [c.entries.keyed hget]

theorem getManyLocked_current {now : ℚ} {policies : K → FreshnessPolicy} {k : K}
    {lookup : CacheLookup K V} {v : SnapshotValue K V} (hv : lookup.value = some v) :
    ∀ {keys : List K} {c : AsyncMemoryCache K V},
      (k, lookup) ∈ (getManyLocked now policies keys c).1 →
        c.get? k = some v ∧ c.entries.Current v
  | [], _, h => by simp [getManyLocked] at h
  | j :: keys, c, h => by
      rw [getManyLocked, List.mem_cons, Prod.mk.injEq] at h
      rcases h with ⟨rfl, rfl⟩ | h
      · exact lookupLocked_current hv
      · have hw := (c.lookupLocked_cases now (policies j) j).1
        obtain ⟨hget, hcur⟩ := getManyLocked_current hv h
        exact ⟨hw _ _ hget, hcur.of_within hw⟩

/-- The check of `get_many` ends on every entry map and accepts exactly the entries that are current
in the least sense; so the closure of a value it returns is there, in the recorded versions and
without cycles. -/
theorem dependencies_current_decides (c : AsyncMemoryCache K V) :
    (∀ v, c.get? v.key = some v → ∃ b,
      (∀ fuel, c.entries.size < fuel →
        dependenciesCurrentWithin c.entries fuel [] v = some b) ∧
      c.dependenciesCurrent v = b ∧ (b = true ↔ c.entries.Current v)) ∧
    ∀ (now : ℚ) (policies : K → FreshnessPolicy) (keys : List K) (k : K)
      (lookup : CacheLookup K V) (v : SnapshotValue K V),
      (k, lookup) ∈ (c.getMany now policies keys).1 → lookup.value = some v →
        c.get? k = some v ∧ c.entries.Current v ∧
        ∀ w, ReflTransGen c.entries.DependsOn v w →
          (∀ d ∈ w.dependencyVersions.entries,
            ∃ x, c.get? d.1 = some x ∧ x.version = d.2) ∧
          ¬ TransGen c.entries.DependsOn w w := by
  constructor
  · intro v hv
    refine ⟨c.dependenciesCurrent v, ?_, rfl, dependenciesCurrent_iff hv⟩
    intro fuel hfuel
    obtain ⟨b, hb, hiff⟩ := dependenciesCurrentWithin_spec hv hfuel
    have hsame : b = c.dependenciesCurrent v :=
      Bool.eq_iff_iff.mpr (hiff.trans (dependenciesCurrent_iff hv).symm)
    rw [hb, hsame]
  · intro now policies keys k lookup v hmem hv
    obtain ⟨hget, hcur⟩ := getManyLocked_current hv hmem
    refine ⟨hget, hcur, fun w hw => ?_⟩
    have hcurw := hcur.of_reaches hw
    exact ⟨hcurw.present, hcurw.acyclic⟩

end AsyncMemoryCache
end Coalestra
