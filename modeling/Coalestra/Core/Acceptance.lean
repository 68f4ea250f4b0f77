import Mathlib.Data.List.Perm.Subperm
import Coalestra.Core.Models

/-! # Snapshot acceptance

`core/acceptance.py`: freshness, authority and presence requirements of a snapshot, and the
violations a candidate is rejected for. The checks of the constructors are fields. The message of a
violation renders its other fields and is left out. -/

namespace Coalestra
set_option autoImplicit false
set_option maxHeartbeats 250000

inductive SnapshotAcceptanceReason
  | stale
  | tooOld
  | insufficientAuthority
  | requirementUnsatisfied
  deriving DecidableEq, Repr

/-- Quality constraints applied to one resolved resource. -/
structure ResourceAcceptanceRule where
  maxAgeSeconds : Option ℚ
  allowStale : Bool
  minimumAuthorityRank : Option ℤ
  maxAge_nonneg : ∀ m ∈ maxAgeSeconds, 0 ≤ m

/-- Whether the rule can reject a resolved resource. -/
def ResourceAcceptanceRule.hasConstraints (rule : ResourceAcceptanceRule) : Bool :=
  rule.maxAgeSeconds.isSome || !rule.allowStale || rule.minimumAuthorityRank.isSome

/-- Require at least `minimumCount` acceptable resources from a key group. -/
structure SnapshotRequirement (K : Type) where
  keys : List K
  minimumCount : ℕ
  name : String
  nodup : keys.Nodup
  count_pos : 1 ≤ minimumCount
  count_le : minimumCount ≤ keys.length

structure SnapshotAcceptancePolicy (K : Type) where
  defaultRule : ResourceAcceptanceRule
  resourceRules : Dict K ResourceAcceptanceRule
  requirements : List (SnapshotRequirement K)
  includeOptionalResources : Bool
  constrained : defaultRule.hasConstraints = true ∨
    (∃ rule ∈ resourceRules.values, rule.hasConstraints = true) ∨ requirements ≠ []

/-- One explanation for a rejected snapshot candidate. -/
structure SnapshotAcceptanceViolation (K : Type) where
  reason : SnapshotAcceptanceReason
  keys : List K
  key : Option K
  requirementName : String
  currentAgeSeconds : Option ℚ
  maxAgeSeconds : Option ℚ
  stale : Option Bool
  authorityRank : Option ℤ
  minimumAuthorityRank : Option ℤ
  acceptedCount : Option ℕ
  requiredCount : Option ℕ

section
variable {K V : Type} [DecidableEq K]

/-- `SnapshotAcceptancePolicy.rule_for`. -/
def SnapshotAcceptancePolicy.ruleFor (policy : SnapshotAcceptancePolicy K) (key : K) :
    ResourceAcceptanceRule :=
  (policy.resourceRules.get? key).getD policy.defaultRule

/-- `current_age` of the evaluation: never less than the age recorded at acquisition. -/
def evaluatedAge (now : ℚ) (value : SnapshotValue K V) : ℚ :=
  max (max 0 value.ageSeconds) (now - value.observedAt)

/-- The value is stale by its label or by its age at evaluation. -/
def dynamicallyStale (now : ℚ) (freshness : FreshnessPolicy) (value : SnapshotValue K V) : Bool :=
  value.stale || decide (freshness.ttlSeconds < (evaluatedAge now value : WithTop ℚ))

/-- `key_violations` of the loop: what one resolved resource is rejected for. -/
def keyViolations (rule : ResourceAcceptanceRule) (freshness : FreshnessPolicy) (now : ℚ) (key : K)
    (value : SnapshotValue K V) : List (SnapshotAcceptanceViolation K) :=
  let currentAge := evaluatedAge now value
  let stale := dynamicallyStale now freshness value
  (if !rule.allowStale && stale then
    [⟨.stale, [key], some key, "", some currentAge, none, some true, none, none, none, none⟩]
  else []) ++
  (match rule.maxAgeSeconds with
  | some maxAge =>
    if maxAge < currentAge then
      [⟨.tooOld, [key], some key, "", some currentAge, some maxAge, some stale, none, none, none,
        none⟩]
    else []
  | none => []) ++
  (match rule.minimumAuthorityRank with
  | some minimum =>
    if value.authorityRank < minimum then
      [⟨.insufficientAuthority, [key], some key, "", none, none, none, some value.authorityRank,
        some minimum, none, none⟩]
    else []
  | none => [])

/-- The keys whose own violations reject the candidate. -/
def directlyEnforced (required optional : List K) (policy : SnapshotAcceptancePolicy K) : List K :=
  Dict.fromKeys required ++
    (if policy.includeOptionalResources then Dict.fromKeys optional else []) ++
    policy.resourceRules.keys

/-- The violations of one key of the candidate; a missing key has none. -/
def resourceViolations (resources : Dict K (SnapshotValue K V)) (policy : SnapshotAcceptancePolicy K)
    (now : ℚ) (freshnessPolicyFor : K → FreshnessPolicy) (key : K) :
    List (SnapshotAcceptanceViolation K) :=
  match resources.get? key with
  | none => []
  | some value => keyViolations (policy.ruleFor key) (freshnessPolicyFor key) now key value

/-- Present and without violations. -/
def acceptable (resources : Dict K (SnapshotValue K V)) (policy : SnapshotAcceptancePolicy K)
    (now : ℚ) (freshnessPolicyFor : K → FreshnessPolicy) (key : K) : Bool :=
  decide (key ∈ resources.keys) &&
    (resourceViolations resources policy now freshnessPolicyFor key).isEmpty

/-- `find_snapshot_acceptance_violations`. -/
def findSnapshotAcceptanceViolations (resources : Dict K (SnapshotValue K V))
    (required optional : List K) (policy : SnapshotAcceptancePolicy K) (now : ℚ)
    (freshnessPolicyFor : K → FreshnessPolicy) : List (SnapshotAcceptanceViolation K) :=
  let enforced := directlyEnforced required optional policy
  let participating := Dict.fromKeys (enforced ++ policy.requirements.flatMap (·.keys))
  let violationsOf := resourceViolations resources policy now freshnessPolicyFor
  let accepts := acceptable resources policy now freshnessPolicyFor
  participating.flatMap (fun key => if key ∈ enforced then violationsOf key else []) ++
  policy.requirements.flatMap fun requirement =>
    let acceptedCount := requirement.keys.countP accepts
    if requirement.minimumCount ≤ acceptedCount then []
    else
      requirement.keys.flatMap (fun key => if key ∈ enforced then [] else violationsOf key) ++
      [⟨.requirementUnsatisfied, requirement.keys, none, requirement.name, none, none, none, none,
        none, some acceptedCount, some requirement.minimumCount⟩]

/-! ## What an accepted candidate satisfies -/

/-- The value meets the rule at the time of the evaluation. -/
structure ResourceAcceptanceRule.Satisfied (rule : ResourceAcceptanceRule)
    (freshness : FreshnessPolicy) (now : ℚ) (value : SnapshotValue K V) : Prop where
  fresh : rule.allowStale = false →
    value.stale = false ∧ (evaluatedAge now value : WithTop ℚ) ≤ freshness.ttlSeconds
  young : ∀ m ∈ rule.maxAgeSeconds, evaluatedAge now value ≤ m
  authority : ∀ r ∈ rule.minimumAuthorityRank, r ≤ value.authorityRank

/-- Enough keys of the group are present and meet their rules. -/
def SnapshotRequirement.Met (requirement : SnapshotRequirement K)
    (resources : Dict K (SnapshotValue K V)) (policy : SnapshotAcceptancePolicy K) (now : ℚ)
    (freshnessPolicyFor : K → FreshnessPolicy) : Prop :=
  ∃ accepted : List K, accepted.Nodup ∧ requirement.minimumCount ≤ accepted.length ∧
    ∀ key ∈ accepted, key ∈ requirement.keys ∧ ∃ value, resources.get? key = some value ∧
      (policy.ruleFor key).Satisfied (freshnessPolicyFor key) now value

omit [DecidableEq K] in
theorem keyViolations_eq_nil {rule : ResourceAcceptanceRule} {freshness : FreshnessPolicy} {now : ℚ}
    {key : K} {value : SnapshotValue K V} :
    keyViolations rule freshness now key value = [] ↔ rule.Satisfied freshness now value := by
  have hfresh : (!rule.allowStale && dynamicallyStale now freshness value) = false ↔
      (rule.allowStale = false →
        value.stale = false ∧ (evaluatedAge now value : WithTop ℚ) ≤ freshness.ttlSeconds) := by
    cases rule.allowStale <;> cases hs : value.stale <;> simp [dynamicallyStale, hs]
  unfold keyViolations
  simp only [List.append_eq_nil_iff]
  constructor
  · rintro ⟨⟨hstale, hage⟩, hrank⟩
    refine ⟨hfresh.mp ?_, fun m hm => ?_, fun r hr => ?_⟩
    · by_contra hne
      rw [Bool.not_eq_false] at hne
      rw [if_pos hne] at hstale
      cases hstale
    · rw [Option.mem_def] at hm
      rw [hm] at hage
      by_contra hlt
      rw [not_le] at hlt
      simp [hlt] at hage
    · rw [Option.mem_def] at hr
      rw [hr] at hrank
      by_contra hlt
      rw [not_le] at hlt
      simp [hlt] at hrank
  · rintro ⟨hstale, hage, hrank⟩
    refine ⟨⟨?_, ?_⟩, ?_⟩
    · rw [hfresh.mpr hstale]
      rfl
    · cases hm : rule.maxAgeSeconds with
      | none => rfl
      | some m => exact if_neg (not_lt.mpr (hage m hm))
    · cases hr : rule.minimumAuthorityRank with
      | none => rfl
      | some r => exact if_neg (not_lt.mpr (hrank r hr))

section
variable {resources : Dict K (SnapshotValue K V)} {policy : SnapshotAcceptancePolicy K} {now : ℚ}
  {freshnessPolicyFor : K → FreshnessPolicy}

theorem resourceViolations_eq_nil {key : K} :
    resourceViolations resources policy now freshnessPolicyFor key = [] ↔
      ∀ value, resources.get? key = some value →
        (policy.ruleFor key).Satisfied (freshnessPolicyFor key) now value := by
  unfold resourceViolations
  cases h : resources.get? key with
  | none => simp
  | some value => simp [keyViolations_eq_nil]

theorem acceptable_iff {key : K} : acceptable resources policy now freshnessPolicyFor key = true ↔
    ∃ value, resources.get? key = some value ∧
      (policy.ruleFor key).Satisfied (freshnessPolicyFor key) now value := by
  unfold acceptable
  rw [Bool.and_eq_true, decide_eq_true_eq, List.isEmpty_iff, resourceViolations_eq_nil,
    Dict.mem_keys]
  constructor
  · rintro ⟨⟨value, hvalue⟩, h⟩
    exact ⟨value, hvalue, h value hvalue⟩
  · rintro ⟨value, hvalue, h⟩
    refine ⟨⟨value, hvalue⟩, fun w hw => ?_⟩
    rw [hvalue, Option.some.injEq] at hw
    rwa [← hw]

theorem met_iff {requirement : SnapshotRequirement K} :
    requirement.Met resources policy now freshnessPolicyFor ↔ requirement.minimumCount ≤
      requirement.keys.countP (acceptable resources policy now freshnessPolicyFor) := by
  constructor
  · rintro ⟨accepted, hnodup, hcount, haccepted⟩
    refine hcount.trans ?_
    rw [List.countP_eq_length_filter]
    refine (List.subperm_of_subset hnodup fun key hkey => ?_).length_le
    obtain ⟨hmem, hvalue⟩ := haccepted key hkey
    exact List.mem_filter.mpr ⟨hmem, acceptable_iff.mpr hvalue⟩
  · intro h
    refine ⟨requirement.keys.filter (acceptable resources policy now freshnessPolicyFor),
      requirement.nodup.filter _, ?_, fun key hkey => ?_⟩
    · rwa [← List.countP_eq_length_filter]
    · rw [List.mem_filter] at hkey
      exact ⟨hkey.1, acceptable_iff.mp hkey.2⟩

/-- A candidate without violations is one whose enforced keys meet their rules where they are
present, and whose requirement groups are met. -/
theorem findSnapshotAcceptanceViolations_eq_nil {required optional : List K} :
    findSnapshotAcceptanceViolations resources required optional policy now freshnessPolicyFor =
      [] ↔
      (∀ key ∈ directlyEnforced required optional policy, ∀ value,
        resources.get? key = some value →
          (policy.ruleFor key).Satisfied (freshnessPolicyFor key) now value) ∧
      ∀ requirement ∈ policy.requirements,
        requirement.Met resources policy now freshnessPolicyFor := by
  unfold findSnapshotAcceptanceViolations
  simp only [List.append_eq_nil_iff, List.flatMap_eq_nil_iff]
  refine and_congr ⟨fun h key hkey => ?_, fun h key _ => ?_⟩ ⟨fun h r hr => ?_, fun h r hr => ?_⟩
  · have hmem := h key (Dict.mem_fromKeys.mpr (List.mem_append_left _ hkey))
    rw [if_pos hkey] at hmem
    exact resourceViolations_eq_nil.mp hmem
  · split
    · rename_i hkey
      exact resourceViolations_eq_nil.mpr (h key hkey)
    · rfl
  · have hnil := h r hr
    rw [met_iff]
    by_contra hlt
    rw [if_neg hlt] at hnil
    simp at hnil
  · rw [if_pos (met_iff.mp (h r hr))]

end

/-! ## Acceptance and time -/

/-- The key is required, optional where the policy includes optional keys, or explicitly ruled. -/
def SnapshotAcceptancePolicy.Enforces (policy : SnapshotAcceptancePolicy K)
    (required optional : List K) (key : K) : Prop :=
  key ∈ required ∨ (policy.includeOptionalResources = true ∧ key ∈ optional) ∨
    key ∈ policy.resourceRules.keys

/-- The declarative meaning of an accepted candidate. -/
structure SnapshotAcceptancePolicy.Accepts (policy : SnapshotAcceptancePolicy K)
    (resources : Dict K (SnapshotValue K V)) (required optional : List K) (now : ℚ)
    (freshnessPolicyFor : K → FreshnessPolicy) : Prop where
  rules : ∀ key, policy.Enforces required optional key → ∀ value,
    resources.get? key = some value →
      (policy.ruleFor key).Satisfied (freshnessPolicyFor key) now value
  groups : ∀ requirement ∈ policy.requirements,
    requirement.Met resources policy now freshnessPolicyFor

theorem mem_directlyEnforced {required optional : List K} {policy : SnapshotAcceptancePolicy K}
    {key : K} :
    key ∈ directlyEnforced required optional policy ↔ policy.Enforces required optional key := by
  unfold directlyEnforced SnapshotAcceptancePolicy.Enforces
  rw [List.mem_append, List.mem_append, Dict.mem_fromKeys, or_assoc]
  cases policy.includeOptionalResources <;> simp

theorem accepts_iff {resources : Dict K (SnapshotValue K V)} {required optional : List K}
    {policy : SnapshotAcceptancePolicy K} {now : ℚ} {freshnessPolicyFor : K → FreshnessPolicy} :
    findSnapshotAcceptanceViolations resources required optional policy now freshnessPolicyFor =
      [] ↔ policy.Accepts resources required optional now freshnessPolicyFor := by
  rw [findSnapshotAcceptanceViolations_eq_nil]
  constructor
  · rintro ⟨hrules, hgroups⟩
    exact ⟨fun key hkey => hrules key (mem_directlyEnforced.mpr hkey), hgroups⟩
  · rintro ⟨hrules, hgroups⟩
    exact ⟨fun key hkey => hrules key (mem_directlyEnforced.mp hkey), hgroups⟩

omit [DecidableEq K] in
theorem evaluatedAge_mono {earlier now : ℚ} (h : earlier ≤ now) (value : SnapshotValue K V) :
    evaluatedAge earlier value ≤ evaluatedAge now value :=
  max_le_max_left _ (sub_le_sub_right h _)

omit [DecidableEq K] in
/-- A value only grows older. -/
theorem ResourceAcceptanceRule.Satisfied.of_le {rule : ResourceAcceptanceRule}
    {freshness : FreshnessPolicy} {earlier now : ℚ} {value : SnapshotValue K V}
    (h : rule.Satisfied freshness now value) (hle : earlier ≤ now) :
    rule.Satisfied freshness earlier value := by
  have hage := evaluatedAge_mono hle value
  refine ⟨fun hstale => ?_, fun m hm => hage.trans (h.young m hm), h.authority⟩
  obtain ⟨hlabel, hfresh⟩ := h.fresh hstale
  exact ⟨hlabel, (WithTop.coe_le_coe.mpr hage).trans hfresh⟩

/-- The keys counted at a time count at every earlier one. -/
theorem SnapshotRequirement.Met.of_le {requirement : SnapshotRequirement K}
    {resources : Dict K (SnapshotValue K V)} {policy : SnapshotAcceptancePolicy K}
    {earlier now : ℚ} {freshnessPolicyFor : K → FreshnessPolicy}
    (h : requirement.Met resources policy now freshnessPolicyFor) (hle : earlier ≤ now) :
    requirement.Met resources policy earlier freshnessPolicyFor := by
  obtain ⟨accepted, hnodup, hcount, haccepted⟩ := h
  refine ⟨accepted, hnodup, hcount, fun key hkey => ?_⟩
  obtain ⟨hmem, value, hvalue, hsatisfied⟩ := haccepted key hkey
  exact ⟨hmem, value, hvalue, hsatisfied.of_le hle⟩

/-- Acceptance decides its declarative meaning, and a candidate accepted at one time is accepted at
every earlier time. -/
theorem acceptance_decides (resources : Dict K (SnapshotValue K V)) (required optional : List K)
    (policy : SnapshotAcceptancePolicy K) (freshnessPolicyFor : K → FreshnessPolicy) :
    (∀ now, findSnapshotAcceptanceViolations resources required optional policy now
        freshnessPolicyFor = [] ↔
      policy.Accepts resources required optional now freshnessPolicyFor) ∧
    ∀ earlier now, earlier ≤ now →
      findSnapshotAcceptanceViolations resources required optional policy now
        freshnessPolicyFor = [] →
      findSnapshotAcceptanceViolations resources required optional policy earlier
        freshnessPolicyFor = [] := by
  refine ⟨fun now => accepts_iff, fun earlier now hle hnow => ?_⟩
  obtain ⟨hrules, hgroups⟩ := accepts_iff.mp hnow
  refine accepts_iff.mpr ⟨fun key hkey value hvalue => ?_, fun requirement hr => ?_⟩
  · exact (hrules key hkey value hvalue).of_le hle
  · exact (hgroups requirement hr).of_le hle

end

/-- At most ten seconds old. -/
def tenSecondsOld : SnapshotAcceptancePolicy ℕ where
  defaultRule := ⟨some 10, true, none, by simp⟩
  resourceRules := .empty
  requirements := []
  includeOptionalResources := false
  constrained := .inl rfl

def observedAtZero : Dict ℕ (SnapshotValue ℕ ℕ) :=
  Dict.empty.set 1 ⟨1, 7, "a", 0, 0, 0, false, false, 0, 1, .empty⟩

/-- Accepted at 5, hence at 3. -/
theorem acceptance_decides_aged :
    findSnapshotAcceptanceViolations observedAtZero [1] [] tenSecondsOld 3
      (fun _ => .allValues) = [] :=
  (acceptance_decides observedAtZero [1] [] tenSecondsOld fun _ => .allValues).2 3 5
    (by norm_num) (List.isEmpty_iff.mp (by decide +kernel))

end Coalestra
