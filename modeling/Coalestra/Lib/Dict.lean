import Mathlib.Data.List.Nodup
import Mathlib.Tactic.Linarith

/-! # Insertion-ordered dictionaries

`Dict K V` is a finite map that remembers the order in which its keys were first inserted. No key
occurs twice: the structure carries the proof, so a dictionary with a shadowed entry cannot be
built. Replacing a value keeps the key's place, `moveToEnd` gives it up.

Everything a proof needs is stated through `get?`: `mem_entries` says that the entries are exactly
the graph of `get?`, and each operation has one `get?` equation. -/

namespace Coalestra
set_option autoImplicit false
set_option maxHeartbeats 250000

/-- A finite map with insertion order; each key occurs once. -/
structure Dict (K V : Type) where
  entries : List (K × V)
  nodup : (entries.map Prod.fst).Nodup

namespace Dict
variable {K V W : Type} [DecidableEq K]

omit [DecidableEq K] in
@[ext] theorem ext {d d' : Dict K V} (h : d.entries = d'.entries) : d = d' := by
  cases d
  cases d'
  cases h
  rfl

/-! ## Lookup -/

def empty : Dict K V := ⟨[], List.nodup_nil⟩

def keys (d : Dict K V) : List K := d.entries.map Prod.fst

def values (d : Dict K V) : List V := d.entries.map Prod.snd

/-- The first entry of `k` in a list of pairs. -/
def find : List (K × V) → K → Option V
  | [], _ => none
  | (key, v) :: rest, k => if key = k then some v else find rest k

def get? (d : Dict K V) (k : K) : Option V := find d.entries k

def size (d : Dict K V) : ℕ := d.entries.length

section

attribute [local simp] find

theorem find_eq_some : ∀ {l : List (K × V)} {k : K} {v : V},
    (l.map Prod.fst).Nodup → (find l k = some v ↔ (k, v) ∈ l)
  | [], k, v, _ => by simp [find]
  | (key, w) :: rest, k, v, h => by
      rw [List.map_cons, List.nodup_cons] at h
      by_cases hk : key = k
      · subst hk
        have hnot : (key, v) ∉ rest := fun hm => h.1 (List.mem_map.mpr ⟨_, hm, rfl⟩)
        simp [find, hnot, eq_comm]
      · have hne : (k, v) ≠ (key, w) := fun e => hk (by simp_all)
        rw [find, if_neg hk, find_eq_some h.2, List.mem_cons, or_iff_right hne]

theorem find_eq_none : ∀ {l : List (K × V)} {k : K}, find l k = none ↔ k ∉ l.map Prod.fst
  | [], k => by simp [find]
  | (key, w) :: rest, k => by
      by_cases hk : key = k
      · simp [find, hk]
      · rw [find, if_neg hk, find_eq_none, List.map_cons, List.mem_cons, not_or]
        exact ⟨fun h => ⟨fun e => hk e.symm, h⟩, fun h => h.2⟩

theorem find_append (l m : List (K × V)) (k : K) :
    find (l ++ m) k = (find l k).or (find m k) := by
  induction l with
  | nil => rfl
  | cons e l ih =>
    obtain ⟨key, w⟩ := e
    by_cases hk : key = k
    · simp [find, hk]
    · simp [find, hk, ih]

end

/-- The entries are the graph of `get?`. -/
theorem mem_entries {d : Dict K V} {k : K} {v : V} : (k, v) ∈ d.entries ↔ d.get? k = some v :=
  (find_eq_some d.nodup).symm

theorem get?_eq_none {d : Dict K V} {k : K} : d.get? k = none ↔ k ∉ d.keys := find_eq_none

theorem mem_keys {d : Dict K V} {k : K} : k ∈ d.keys ↔ ∃ v, d.get? k = some v := by
  constructor
  · intro h
    cases hg : d.get? k with
    | none => exact absurd h (get?_eq_none.mp hg)
    | some v => exact ⟨v, rfl⟩
  · rintro ⟨v, hv⟩
    exact List.mem_map.mpr ⟨(k, v), mem_entries.mpr hv, rfl⟩

theorem mem_keys_of_get? {d : Dict K V} {k : K} {v : V} (h : d.get? k = some v) : k ∈ d.keys :=
  mem_keys.mpr ⟨v, h⟩

instance (d : Dict K V) (k : K) : Decidable (k ∈ d.keys) := inferInstanceAs (Decidable (k ∈ _))

@[simp] theorem get?_empty (k : K) : (empty : Dict K V).get? k = none := rfl

omit [DecidableEq K] in
@[simp] theorem keys_empty : (empty : Dict K V).keys = [] := rfl

omit [DecidableEq K] in
@[simp] theorem entries_empty : (empty : Dict K V).entries = [] := rfl

/-! ## Writing -/

/-- Replaces the value of `k` where it stands in the list. -/
def replace (l : List (K × V)) (k : K) (v : V) : List (K × V) :=
  l.map fun e => if e.1 = k then (k, v) else e

theorem replace_keys (l : List (K × V)) (k : K) (v : V) :
    (replace l k v).map Prod.fst = l.map Prod.fst := by
  rw [replace, List.map_map]
  apply List.map_congr_left
  intro e _
  by_cases h : e.1 = k <;> simp [h]

theorem find_replace (l : List (K × V)) (k j : K) (v : V) :
    find (replace l k v) j = if j = k then (find l j).map (fun _ => v) else find l j := by
  induction l with
  | nil => simp [replace, find]
  | cons e l ih =>
    obtain ⟨key, w⟩ := e
    unfold replace at ih ⊢
    by_cases hk : key = k
    · subst hk
      by_cases hj : j = key
      · subst hj; simp [find]
      · have hj' : ¬ key = j := fun e => hj e.symm
        simp [find, hj, hj', ih]
    · by_cases hj : key = j
      · subst hj; simp [find, hk]
      · simp [find, hk, hj, ih]

/-- `d[k] = v`: an old key keeps its place, a new key goes to the end. -/
def set (d : Dict K V) (k : K) (v : V) : Dict K V :=
  if h : k ∈ d.keys then ⟨replace d.entries k v, by rw [replace_keys]; exact d.nodup⟩
  else ⟨d.entries ++ [(k, v)], by
    rw [List.map_append, List.nodup_append]
    refine ⟨d.nodup, List.nodup_singleton _, ?_⟩
    intro a ha b hb e
    simp only [List.map_cons, List.map_nil, List.mem_singleton] at hb
    subst hb; subst e
    exact h ha⟩

theorem get?_set (d : Dict K V) (k j : K) (v : V) :
    (d.set k v).get? j = if j = k then some v else d.get? j := by
  by_cases h : k ∈ d.keys
  · obtain ⟨w, hw⟩ := mem_keys.mp h
    rw [set, dif_pos h, get?, find_replace]
    by_cases hj : j = k
    · subst hj
      rw [get?] at hw
      simp [hw]
    · simp [hj, get?]
  · rw [set, dif_neg h, get?, find_append]
    have hnone : find d.entries k = none := find_eq_none.mpr h
    by_cases hj : j = k
    · subst hj; simp [hnone, find]
    · have hj' : ¬ k = j := fun e => hj e.symm
      simp [hj, hj', find, get?]

@[simp] theorem get?_set_self (d : Dict K V) (k : K) (v : V) : (d.set k v).get? k = some v := by
  rw [get?_set, if_pos rfl]

theorem get?_set_ne (d : Dict K V) {k j : K} (v : V) (h : j ≠ k) :
    (d.set k v).get? j = d.get? j := by rw [get?_set, if_neg h]

theorem mem_keys_set {d : Dict K V} {k j : K} {v : V} :
    j ∈ (d.set k v).keys ↔ j = k ∨ j ∈ d.keys := by
  rw [mem_keys, mem_keys]
  by_cases h : j = k
  · simp [h]
  · simp [get?_set_ne d v h, h]

theorem mem_entries_set {d : Dict K V} {k j : K} {v w : V} (h : (j, w) ∈ (d.set k v).entries) :
    (j = k ∧ w = v) ∨ (j, w) ∈ d.entries := by
  rw [mem_entries, get?_set] at h
  by_cases hj : j = k
  · simp only [hj, if_true, Option.some.injEq] at h
    exact Or.inl ⟨hj, h.symm⟩
  · rw [if_neg hj] at h
    exact Or.inr (mem_entries.mpr h)

/-! ## Removing -/

/-- The entries whose key satisfies `p`. -/
def filter (d : Dict K V) (p : K → Bool) : Dict K V :=
  ⟨d.entries.filter fun e => p e.1, (List.filter_sublist.map _).nodup d.nodup⟩

omit [DecidableEq K] in
theorem mem_entries_filter {d : Dict K V} {p : K → Bool} {k : K} {v : V} :
    (k, v) ∈ (d.filter p).entries ↔ (k, v) ∈ d.entries ∧ p k = true := by
  simp [filter]

theorem get?_filter (d : Dict K V) (p : K → Bool) (k : K) :
    (d.filter p).get? k = if p k then d.get? k else none := by
  by_cases h : p k = true
  · rw [if_pos h]
    cases hg : d.get? k with
    | some v => exact mem_entries.mp (mem_entries_filter.mpr ⟨mem_entries.mpr hg, h⟩)
    | none =>
      rw [get?_eq_none] at hg ⊢
      intro hk
      obtain ⟨v, hv⟩ := mem_keys.mp hk
      exact hg (mem_keys_of_get? (mem_entries.mp (mem_entries_filter.mp (mem_entries.mpr hv)).1))
  · rw [if_neg h, get?_eq_none]
    intro hk
    obtain ⟨v, hv⟩ := mem_keys.mp hk
    exact h (mem_entries_filter.mp (mem_entries.mpr hv)).2

/-- `d.pop(k, None)`. -/
def erase (d : Dict K V) (k : K) : Dict K V := d.filter fun j => decide (j ≠ k)

theorem get?_erase (d : Dict K V) (k j : K) :
    (d.erase k).get? j = if j = k then none else d.get? j := by
  rw [erase, get?_filter]
  by_cases h : j = k <;> simp [h]

@[simp] theorem get?_erase_self (d : Dict K V) (k : K) : (d.erase k).get? k = none := by
  rw [get?_erase, if_pos rfl]

theorem get?_erase_ne (d : Dict K V) {k j : K} (h : j ≠ k) : (d.erase k).get? j = d.get? j := by
  rw [get?_erase, if_neg h]

theorem mem_keys_erase {d : Dict K V} {k j : K} : j ∈ (d.erase k).keys ↔ j ≠ k ∧ j ∈ d.keys := by
  rw [mem_keys, mem_keys]
  by_cases h : j = k
  · simp [h]
  · simp [get?_erase_ne d h, h]

/-- `OrderedDict.move_to_end(k)`. -/
def moveToEnd (d : Dict K V) (k : K) : Dict K V :=
  match d.get? k with
  | some v => (d.erase k).set k v
  | none => d

theorem get?_moveToEnd (d : Dict K V) (k j : K) : (d.moveToEnd k).get? j = d.get? j := by
  unfold moveToEnd
  cases h : d.get? k with
  | none => rfl
  | some v =>
    by_cases hj : j = k
    · subst hj; simp [h]
    · rw [get?_set_ne _ _ hj, get?_erase_ne _ hj]

omit [DecidableEq K] in
theorem keys_filter (d : Dict K V) (p : K → Bool) : (d.filter p).keys = d.keys.filter p := by
  rw [keys, keys, filter, List.filter_map]
  rfl

theorem keys_set_of_mem {d : Dict K V} {k : K} (h : k ∈ d.keys) (v : V) :
    (d.set k v).keys = d.keys := by
  rw [set, dif_pos h, keys, replace_keys]
  rfl

theorem keys_set_new {d : Dict K V} {k : K} (h : k ∉ d.keys) (v : V) :
    (d.set k v).keys = d.keys ++ [k] := by
  rw [set, dif_neg h, keys, List.map_append]
  rfl

/-- The key that is moved goes behind the others. -/
theorem keys_moveToEnd {d : Dict K V} {k : K} (h : k ∈ d.keys) :
    (d.moveToEnd k).keys = (d.keys.filter fun j => decide (j ≠ k)) ++ [k] := by
  obtain ⟨v, hv⟩ := mem_keys.mp h
  have hnew : k ∉ (d.erase k).keys := fun hk => (mem_keys_erase.mp hk).1 rfl
  rw [moveToEnd, hv, keys_set_new hnew, erase, keys_filter]

/-- `OrderedDict.popitem(last=False)`: the oldest entry leaves. -/
def popFirst (d : Dict K V) : Dict K V :=
  ⟨d.entries.tail, by rw [List.map_tail]; exact d.nodup.sublist (List.tail_sublist _)⟩

/-! ## Comprehensions and merging -/

/-- `dict.fromkeys(ks)`: the first occurrence of every key. -/
def fromKeys : List K → List K
  | [] => []
  | k :: ks => k :: (fromKeys ks).filter fun j => decide (j ≠ k)

section

attribute [local simp] fromKeys

@[simp] theorem mem_fromKeys {k : K} : ∀ {ks : List K}, k ∈ fromKeys ks ↔ k ∈ ks
  | [] => Iff.rfl
  | j :: ks => by
      by_cases h : k = j
      · simp [fromKeys, h]
      · simp [fromKeys, h, mem_fromKeys]

theorem nodup_fromKeys : ∀ ks : List K, (fromKeys ks).Nodup
  | [] => List.nodup_nil
  | k :: ks => by
      rw [fromKeys, List.nodup_cons]
      exact ⟨by simp, (nodup_fromKeys ks).filter _⟩

theorem fromKeys_of_nodup : ∀ {keys : List K}, keys.Nodup → fromKeys keys = keys
  | [], _ => rfl
  | key :: keys, h => by
      rw [List.nodup_cons] at h
      rw [fromKeys, fromKeys_of_nodup h.2, List.filter_eq_self.mpr]
      intro j hj
      simp only [decide_eq_true_eq]
      rintro rfl
      exact h.1 hj

end

/-- `{k: f(k) for k in keys if f(k) is defined}`. -/
def comprehend (ks : List K) (f : K → Option V) : Dict K V :=
  ks.foldl (fun d k => match f k with | some v => d.set k v | none => d) empty

theorem get?_foldl_comprehend (f : K → Option V) (k : K) : ∀ (ks : List K) (d : Dict K V),
    (ks.foldl (fun d k => match f k with | some v => d.set k v | none => d) d).get? k =
      if k ∈ ks ∧ (f k).isSome then f k else d.get? k
  | [], d => by simp
  | j :: ks, d => by
      rw [List.foldl_cons, get?_foldl_comprehend f k ks]
      by_cases hk : k ∈ ks ∧ (f k).isSome
      · simp [hk.1, hk.2]
      · rw [if_neg hk]
        cases hj : f j with
        | none =>
          have : ¬ (k ∈ j :: ks ∧ (f k).isSome) := by
            rintro ⟨hm, hs⟩
            rcases List.mem_cons.mp hm with rfl | hm
            · simp [hj] at hs
            · exact hk ⟨hm, hs⟩
          rw [if_neg this]
        | some v =>
          by_cases e : k = j
          · subst e; simp [hj]
          · have : ¬ (k ∈ j :: ks ∧ (f k).isSome) := by
              rintro ⟨hm, hs⟩
              exact hk ⟨(List.mem_cons.mp hm).resolve_left e, hs⟩
            rw [if_neg this]
            exact get?_set_ne d v e

theorem get?_comprehend (ks : List K) (f : K → Option V) (k : K) :
    (comprehend ks f).get? k = if k ∈ ks then f k else none := by
  rw [comprehend, get?_foldl_comprehend]
  by_cases hk : k ∈ ks
  · cases hf : f k <;> simp [hk]
  · simp [hk]

/-- `{**d, **e}`: the entries of `e` win. -/
def update (d e : Dict K V) : Dict K V := e.entries.foldl (fun d p => d.set p.1 p.2) d

theorem get?_foldl_set (k : K) : ∀ (l : List (K × V)) (d : Dict K V),
    (l.map Prod.fst).Nodup →
    (l.foldl (fun d p => d.set p.1 p.2) d).get? k = (find l k).or (d.get? k)
  | [], d, _ => by simp [find]
  | (j, w) :: l, d, h => by
      rw [List.map_cons, List.nodup_cons] at h
      rw [List.foldl_cons, get?_foldl_set k l _ h.2]
      by_cases e : j = k
      · subst e
        have : find l j = none := find_eq_none.mpr h.1
        simp [find, this]
      · have e' : k ≠ j := fun h => e h.symm
        simp [find, e, get?_set_ne _ _ e']

theorem get?_update (d e : Dict K V) (k : K) : (d.update e).get? k = (e.get? k).or (d.get? k) :=
  get?_foldl_set k e.entries d e.nodup

theorem mem_entries_update {d e : Dict K V} {k : K} {v : V} (h : (k, v) ∈ (d.update e).entries) :
    (k, v) ∈ e.entries ∨ (k, v) ∈ d.entries := by
  rw [mem_entries, get?_update] at h
  rw [mem_entries, mem_entries]
  cases he : e.get? k with
  | none => rw [he] at h; exact Or.inr h
  | some w => rw [he] at h; exact Or.inl h

theorem mem_of_find : ∀ {l : List (K × V)} {k : K} {v : V},
    find l k = some v → (k, v) ∈ l
  | (key, w) :: l, k, v, h => by
      rw [find] at h
      split at h
      · rename_i he
        rw [Option.some.injEq] at h
        rw [he, h]
        exact List.mem_cons_self
      · exact List.mem_cons_of_mem _ (mem_of_find h)

theorem find_map_values (f : V → W) (j : K) : ∀ l : List (K × V),
    find (l.map fun e => (e.1, f e.2)) j = (find l j).map f
  | [] => rfl
  | (key, v) :: rest => by
      rw [List.map_cons, find, find]
      split
      · rfl
      · exact find_map_values f j rest

theorem find_map_graph (g : K → V) : ∀ {keys : List K} {k : K}, k ∈ keys →
    find (keys.map fun key => (key, g key)) k = some (g k)
  | key :: keys, k, h => by
      rw [List.map_cons, find]
      split
      · rename_i he
        rw [he]
      · rename_i hne
        exact find_map_graph g ((List.mem_cons.mp h).resolve_left fun e => hne e.symm)

theorem mem_keys_comprehend {ks : List K} {f : K → Option V} {k : K} :
    k ∈ (comprehend ks f).keys ↔ k ∈ ks ∧ (f k).isSome := by
  rw [mem_keys, get?_comprehend]
  by_cases h : k ∈ ks
  · simp [h, Option.isSome_iff_exists]
  · simp [h]

theorem mem_keys_update {d e : Dict K V} {k : K} :
    k ∈ (d.update e).keys ↔ k ∈ e.keys ∨ k ∈ d.keys := by
  rw [mem_keys, get?_update, mem_keys, mem_keys]
  cases e.get? k <;> simp

theorem mem_keys_filter {d : Dict K V} {p : K → Bool} {k : K} :
    k ∈ (d.filter p).keys ↔ p k = true ∧ k ∈ d.keys := by
  rw [mem_keys, get?_filter, mem_keys]
  cases p k <;> simp

theorem get?_update_cases {d d' : Dict K V} {k : K} {x : V}
    (h : (d.update d').get? k = some x) : d'.get? k = some x ∨ d.get? k = some x := by
  rw [get?_update] at h
  cases hk : d'.get? k with
  | some y =>
    rw [hk, Option.some_or] at h
    exact .inl h
  | none =>
    rw [hk, Option.none_or] at h
    exact .inr h

theorem get?_set_cases {d : Dict K V} {k k' : K} {x y : V}
    (h : (d.set k' y).get? k = some x) : (k' = k ∧ y = x) ∨ d.get? k = some x := by
  rw [get?_set] at h
  split at h
  · rename_i hk
    rw [Option.some.injEq] at h
    exact .inl ⟨hk.symm, h⟩
  · exact .inr h

theorem entries_set_new {d : Dict K V} {k : K} (h : k ∉ d.keys) (w : V) :
    (d.set k w).entries = d.entries ++ [(k, w)] := by
  rw [set, dif_neg h]

theorem length_fromKeys : ∀ keys : List K, (fromKeys keys).length ≤ keys.length
  | [] => le_rfl
  | k :: keys => by
      have hrest := length_fromKeys keys
      have hfilter := List.length_filter_le (fun j => decide (j ≠ k)) (fromKeys keys)
      rw [fromKeys, List.length_cons, List.length_cons]
      omega

theorem get?_foldl_set_const (v : V) (k : K) : ∀ (keys : List K) (d : Dict K V),
    (keys.foldl (fun d key => d.set key v) d).get? k = if k ∈ keys then some v else d.get? k
  | [], d => by simp
  | key :: keys, d => by
      rw [List.foldl_cons, get?_foldl_set_const v k keys, get?_set]
      by_cases h1 : k ∈ keys
      · simp [h1]
      · by_cases h2 : k = key <;> simp [h1, h2]

end Dict
end Coalestra
