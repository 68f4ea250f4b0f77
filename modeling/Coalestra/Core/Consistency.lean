import Coalestra.Core.Models

/-! # Observation skew

`core/consistency.py`: the group of resolved keys violates its policy when the newest observation
is too far from the oldest one. -/

namespace Coalestra
set_option autoImplicit false
set_option maxHeartbeats 250000

structure SnapshotConsistencyPolicy where
  maxObservationSkewSeconds : ℚ
  includeOptionalResources : Bool
  skew_nonneg : 0 ≤ maxObservationSkewSeconds

structure ObservationSkewViolation (K : Type) where
  keys : List K
  oldestKey : K
  oldestObservedAt : ℚ
  newestKey : K
  newestObservedAt : ℚ
  observationSkewSeconds : ℚ
  maxObservationSkewSeconds : ℚ

section
variable {K V : Type} [DecidableEq K]

/-- `min(resolved, key=observed_at)`: the first oldest item. -/
def oldestItem (first : K × SnapshotValue K V) (rest : List (K × SnapshotValue K V)) :
    K × SnapshotValue K V :=
  rest.foldl (fun best item => if item.2.observedAt < best.2.observedAt then item else best) first

/-- `max(resolved, key=observed_at)`: the first newest item. -/
def newestItem (first : K × SnapshotValue K V) (rest : List (K × SnapshotValue K V)) :
    K × SnapshotValue K V :=
  rest.foldl (fun best item => if best.2.observedAt < item.2.observedAt then item else best) first

def resolvedItems (resources : Dict K (SnapshotValue K V)) (keys : List K) :
    List (K × SnapshotValue K V) :=
  (Dict.fromKeys keys).filterMap fun key => (resources.get? key).map fun value => (key, value)

/-- `find_observation_skew_violation`. -/
def findObservationSkewViolation (resources : Dict K (SnapshotValue K V)) (keys : List K)
    (policy : SnapshotConsistencyPolicy) : Option (ObservationSkewViolation K) :=
  match resolvedItems resources keys with
  | first :: second :: rest =>
    let oldest := oldestItem first (second :: rest)
    let newest := newestItem first (second :: rest)
    let skew := max 0 (newest.2.observedAt - oldest.2.observedAt)
    if skew ≤ policy.maxObservationSkewSeconds then none
    else some
      { keys := (first :: second :: rest).map Prod.fst
        oldestKey := oldest.1
        oldestObservedAt := oldest.2.observedAt
        newestKey := newest.1
        newestObservedAt := newest.2.observedAt
        observationSkewSeconds := skew
        maxObservationSkewSeconds := policy.maxObservationSkewSeconds }
  | _ => none

theorem foldl_select_mem {α : Type} (better : α → α → Bool) :
    ∀ (rest : List α) (first : α),
      rest.foldl (fun best item => if better best item then item else best) first = first ∨
        rest.foldl (fun best item => if better best item then item else best) first ∈ rest
  | [], _ => .inl rfl
  | a :: rest, first => by
      rw [List.foldl_cons]
      cases better first a with
      | true =>
        rcases foldl_select_mem better rest a with h | h
        · exact .inr (by simp [h])
        · exact .inr (List.mem_cons_of_mem _ h)
      | false =>
        rcases foldl_select_mem better rest first with h | h
        · exact .inl h
        · exact .inr (List.mem_cons_of_mem _ h)

omit [DecidableEq K] in
theorem oldestItem_mem (first : K × SnapshotValue K V) (rest : List (K × SnapshotValue K V)) :
    oldestItem first rest ∈ first :: rest := by
  have h := foldl_select_mem
    (fun best item : K × SnapshotValue K V => decide (item.2.observedAt < best.2.observedAt))
    rest first
  simp only [decide_eq_true_eq] at h
  exact List.mem_cons.mpr h

/-- The oldest key of a violation is one of the keys checked, and it is resolved. -/
theorem oldestKey_mem {resources : Dict K (SnapshotValue K V)} {keys : List K}
    {policy : SnapshotConsistencyPolicy} {violation : ObservationSkewViolation K}
    (h : findObservationSkewViolation resources keys policy = some violation) :
    violation.oldestKey ∈ keys ∧ ∃ value, resources.get? violation.oldestKey = some value := by
  unfold findObservationSkewViolation at h
  split at h
  · rename_i first second rest hitems
    simp only at h
    split at h
    · cases h
    · rw [Option.some.injEq] at h
      have hmem := oldestItem_mem first (second :: rest)
      rw [← hitems, resolvedItems, List.mem_filterMap] at hmem
      obtain ⟨key, hkey, hvalue⟩ := hmem
      rw [Option.map_eq_some_iff] at hvalue
      obtain ⟨value, hget, heq⟩ := hvalue
      have hk : violation.oldestKey = key := by rw [← h, ← heq]
      rw [hk]
      exact ⟨Dict.mem_fromKeys.mp hkey, value, hget⟩
  · cases h

omit [DecidableEq K] in
theorem oldestItem_le : ∀ (rest : List (K × SnapshotValue K V)) (first : K × SnapshotValue K V),
    ∀ item ∈ first :: rest, (oldestItem first rest).2.observedAt ≤ item.2.observedAt
  | [], first, item, h => by
      rw [List.mem_singleton.mp h]
      rfl
  | next :: rest, first, item, h => by
      have hstep : oldestItem first (next :: rest) =
          oldestItem (if next.2.observedAt < first.2.observedAt then next else first) rest := rfl
      have hall := oldestItem_le rest
        (if next.2.observedAt < first.2.observedAt then next else first)
      have hhead := hall _ List.mem_cons_self
      rw [hstep]
      rcases List.mem_cons.mp h with rfl | h
      · refine hhead.trans ?_
        split
        · exact le_of_lt ‹_›
        · exact le_rfl
      · rcases List.mem_cons.mp h with rfl | h
        · refine hhead.trans ?_
          split
          · exact le_rfl
          · exact not_lt.mp ‹_›
        · exact hall item (List.mem_cons_of_mem _ h)

omit [DecidableEq K] in
theorem le_newestItem : ∀ (rest : List (K × SnapshotValue K V)) (first : K × SnapshotValue K V),
    ∀ item ∈ first :: rest, item.2.observedAt ≤ (newestItem first rest).2.observedAt
  | [], first, item, h => by
      rw [List.mem_singleton.mp h]
      rfl
  | next :: rest, first, item, h => by
      have hstep : newestItem first (next :: rest) =
          newestItem (if first.2.observedAt < next.2.observedAt then next else first) rest := rfl
      have hall := le_newestItem rest
        (if first.2.observedAt < next.2.observedAt then next else first)
      have hhead := hall _ List.mem_cons_self
      rw [hstep]
      rcases List.mem_cons.mp h with rfl | h
      · refine le_trans ?_ hhead
        split
        · exact le_of_lt ‹_›
        · exact le_rfl
      · rcases List.mem_cons.mp h with rfl | h
        · refine le_trans ?_ hhead
          split
          · exact le_rfl
          · exact not_lt.mp ‹_›
        · exact hall item (List.mem_cons_of_mem _ h)

theorem mem_resolvedItems {resources : Dict K (SnapshotValue K V)} {keys : List K} {k : K}
    {v : SnapshotValue K V} (hk : k ∈ keys) (hv : resources.get? k = some v) :
    (k, v) ∈ resolvedItems resources keys := by
  rw [resolvedItems, List.mem_filterMap]
  exact ⟨k, Dict.mem_fromKeys.mpr hk, by rw [hv]; rfl⟩

/-- Without a violation the resolved keys were observed pairwise within the allowed skew. -/
theorem skew_le_of_no_violation {resources : Dict K (SnapshotValue K V)} {keys : List K}
    {policy : SnapshotConsistencyPolicy}
    (h : findObservationSkewViolation resources keys policy = none) {k k' : K}
    {v v' : SnapshotValue K V} (hk : k ∈ keys) (hk' : k' ∈ keys)
    (hv : resources.get? k = some v) (hv' : resources.get? k' = some v') :
    v.observedAt - v'.observedAt ≤ policy.maxObservationSkewSeconds := by
  have hmem := mem_resolvedItems hk hv
  have hmem' := mem_resolvedItems hk' hv'
  unfold findObservationSkewViolation at h
  split at h
  · rename_i first second rest hitems
    rw [hitems] at hmem hmem'
    dsimp only at h
    split at h
    · rename_i hskew
      have hnew := le_newestItem (second :: rest) first _ hmem
      have hold := oldestItem_le (second :: rest) first _ hmem'
      have hmax := le_max_right 0 ((newestItem first (second :: rest)).2.observedAt -
        (oldestItem first (second :: rest)).2.observedAt)
      linarith
    · cases h
  · rename_i hitems
    have hone : (k, v) = (k', v') := by
      cases hl : resolvedItems resources keys with
      | nil => rw [hl] at hmem; cases hmem
      | cons first l =>
        cases l with
        | nil =>
          rw [hl, List.mem_singleton] at hmem hmem'
          rw [hmem, hmem']
        | cons second rest => exact absurd hl (hitems first second rest)
    rw [Prod.mk.injEq] at hone
    rw [hone.2, sub_self]
    exact policy.skew_nonneg

end
end Coalestra
