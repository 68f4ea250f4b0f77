import Coalestra.Lib.Dict

/-! # Least recently used

A history lists the keys that were touched, the latest first. `latest limit history` are the keys a
store of that size should hold: each once, the latest first. A dictionary that moves a touched key
to its end and drops surplus entries from its front holds exactly these (`Recalls`). -/

namespace Coalestra
set_option autoImplicit false
set_option maxHeartbeats 250000

section
variable {K V : Type} [DecidableEq K]

/-- `list[:limit]`, or the whole list without a limit. -/
def upTo (limit : Option ℕ) (l : List K) : List K := limit.elim l fun n => l.take n

/-- The latest keys of a history, each once. -/
def latest (limit : Option ℕ) (history : List K) : List K := upTo limit (Dict.fromKeys history)

theorem filter_ne_of_notMem {l : List K} {k : K} (h : k ∉ l) :
    (l.filter fun j => decide (j ≠ k)) = l := by
  rw [List.filter_eq_self]
  intro j hj
  simp only [decide_eq_true_eq]
  rintro rfl
  exact h hj

theorem filter_ne_cons {a k : K} (h : a ≠ k) (l : List K) :
    ((a :: l).filter fun j => decide (j ≠ k)) = a :: l.filter fun j => decide (j ≠ k) := by
  simp [h]

theorem filter_ne_cons_self (k : K) (l : List K) :
    ((k :: l).filter fun j => decide (j ≠ k)) = l.filter fun j => decide (j ≠ k) := by
  simp

theorem take_filter_ne {l : List K} (hl : l.Nodup) {k : K} {m : ℕ} (h : k ∈ l.take (m + 1)) :
    (l.filter fun j => decide (j ≠ k)).take m =
      (l.take (m + 1)).filter fun j => decide (j ≠ k) := by
  induction l generalizing m with
  | nil => simp
  | cons a l ih =>
    obtain ⟨ha, hl⟩ := List.nodup_cons.mp hl
    by_cases hak : a = k
    · subst hak
      have htake : a ∉ l.take m := fun hm => ha (List.mem_of_mem_take hm)
      rw [filter_ne_cons_self, filter_ne_of_notMem ha, List.take_succ_cons, filter_ne_cons_self,
        filter_ne_of_notMem htake]
    · rw [List.take_succ_cons, List.mem_cons] at h
      have hrest := h.resolve_left fun e => hak e.symm
      obtain ⟨n, rfl⟩ : ∃ n, m = n + 1 := by
        cases m with
        | zero => simp at hrest
        | succ n => exact ⟨n, rfl⟩
      rw [filter_ne_cons hak, List.take_succ_cons, ih hl hrest, List.take_succ_cons,
        filter_ne_cons hak]

/-- Touching a key that is held moves it to the front. -/
theorem latest_touch {limit : Option ℕ} {history : List K} {k : K}
    (h : k ∈ latest limit history) :
    latest limit (k :: history) = k :: (latest limit history).filter fun j => decide (j ≠ k) := by
  cases limit with
  | none => rfl
  | some n =>
    cases n with
    | zero => simp [latest, upTo] at h
    | succ m =>
      simp only [latest, upTo, Option.elim_some] at h ⊢
      rw [Dict.fromKeys, List.take_succ_cons, take_filter_ne (Dict.nodup_fromKeys history) h]

/-- Touching a key that is not held puts it in front and drops what exceeds the limit. -/
theorem latest_miss {limit : Option ℕ} (hlimit : limit ≠ some 0) {history : List K} {k : K}
    (h : k ∉ latest limit history) :
    latest limit (k :: history) = upTo limit (k :: latest limit history) := by
  cases limit with
  | none =>
    simp only [latest, upTo, Option.elim_none] at h ⊢
    rw [Dict.fromKeys, filter_ne_of_notMem h]
  | some n =>
    cases n with
    | zero => exact absurd rfl hlimit
    | succ m =>
      simp only [latest, upTo, Option.elim_some] at h ⊢
      rw [Dict.fromKeys, List.take_succ_cons, List.take_succ_cons, List.take_take]
      congr 1
      rw [Nat.min_eq_left (by omega)]
      generalize Dict.fromKeys history = l at h
      induction l generalizing m with
      | nil => rfl
      | cons a l ih =>
        rw [List.take_succ_cons, List.mem_cons, not_or] at h
        cases m with
        | zero => simp
        | succ n =>
          have hak : a ≠ k := fun e => h.1 e.symm
          rw [filter_ne_cons hak, List.take_succ_cons, List.take_succ_cons, ih n (by simp) h.2]

namespace Dict

/-! ## Dropping the oldest entries -/

omit [DecidableEq K] in
theorem keys_popFirst (d : Dict K V) : d.popFirst.keys = d.keys.tail := by
  rw [keys, keys, popFirst, List.map_tail]

theorem get?_popFirst {d : Dict K V} {k : K} {v : V} (h : d.popFirst.get? k = some v) :
    d.get? k = some v :=
  mem_entries.mp (List.mem_of_mem_tail (mem_entries.mpr h))

/-- `popitem(last=False)`, so many times. -/
def popOldest : ℕ → Dict K V → Dict K V
  | 0, d => d
  | n + 1, d => popOldest n d.popFirst

omit [DecidableEq K] in
theorem keys_popOldest (n : ℕ) (d : Dict K V) : (popOldest n d).keys = d.keys.drop n := by
  induction n generalizing d with
  | zero => rfl
  | succ n ih => rw [popOldest, ih, keys_popFirst, List.drop_tail]

theorem get?_popOldest {n : ℕ} {d : Dict K V} {k : K} {v : V}
    (h : (popOldest n d).get? k = some v) : d.get? k = some v := by
  induction n generalizing d with
  | zero => exact h
  | succ n ih => exact get?_popFirst (ih h)

/-- `while len(d) > limit: d.popitem(last=False)`. -/
def trim (limit : Option ℕ) (d : Dict K V) : Dict K V :=
  limit.elim d fun n => popOldest (d.size - n) d

theorem get?_trim {limit : Option ℕ} {d : Dict K V} {k : K} {v : V}
    (h : (d.trim limit).get? k = some v) : d.get? k = some v := by
  cases limit with
  | none => exact h
  | some n => exact get?_popOldest h

omit [DecidableEq K] in
theorem reverse_keys_trim (limit : Option ℕ) (d : Dict K V) :
    (d.trim limit).keys.reverse = upTo limit d.keys.reverse := by
  cases limit with
  | none => rfl
  | some n =>
    have hsize : d.size = d.keys.length := by simp [size, keys]
    rw [trim, Option.elim_some, keys_popOldest, List.reverse_drop, upTo, Option.elim_some, hsize]
    by_cases hle : d.keys.length ≤ n
    · have hall : d.keys.reverse.length ≤ d.keys.length - (d.keys.length - n) := by
        rw [List.length_reverse]
        omega
      rw [List.take_of_length_le hall, List.take_of_length_le (by simpa using hle)]
    · congr 1
      omega

/-- The dictionary holds the latest keys of the history, the latest at its end. -/
def Recalls (d : Dict K V) (limit : Option ℕ) (history : List K) : Prop :=
  d.keys.reverse = latest limit history

theorem Recalls.mem_keys {d : Dict K V} {limit : Option ℕ} {history : List K}
    (h : d.Recalls limit history) {k : K} : k ∈ d.keys ↔ k ∈ latest limit history := by
  rw [← show d.keys.reverse = latest limit history from h, List.mem_reverse]

theorem Recalls.empty (limit : Option ℕ) : (Dict.empty : Dict K V).Recalls limit [] := by
  cases limit <;> simp [Recalls, latest, upTo, fromKeys]

/-- `move_to_end(k)` for a key that is held. -/
theorem Recalls.touch {d : Dict K V} {limit : Option ℕ} {history : List K} {k : K}
    (h : d.Recalls limit history) (hk : k ∈ d.keys) :
    (d.moveToEnd k).Recalls limit (k :: history) := by
  have hlatest := h.mem_keys.mp hk
  rw [Recalls, keys_moveToEnd hk, List.reverse_append, ← List.filter_reverse,
    latest_touch hlatest, show d.keys.reverse = latest limit history from h]
  rfl

/-- A new key goes to the end, and the oldest ones beyond the limit go. -/
theorem Recalls.insert {d d' : Dict K V} {limit : Option ℕ} (hlimit : limit ≠ some 0)
    {history : List K} {k : K} (h : d.Recalls limit history) (hk : k ∉ d.keys)
    (hd : d'.keys = d.keys ++ [k]) : (d'.trim limit).Recalls limit (k :: history) := by
  have hlatest : k ∉ latest limit history := fun hm => hk (h.mem_keys.mpr hm)
  rw [Recalls, reverse_keys_trim, hd, List.reverse_append, latest_miss hlimit hlatest,
    show d.keys.reverse = latest limit history from h]
  rfl

/-- Nothing beyond the limit is held. -/
theorem Recalls.size_le {d : Dict K V} {limit : ℕ} {history : List K}
    (h : d.Recalls (some limit) history) : d.size ≤ limit := by
  have hlen := congrArg List.length (show d.keys.reverse = latest (some limit) history from h)
  have hsize : d.size = d.keys.length := by simp [size, keys]
  rw [hsize, ← List.length_reverse, hlen, latest, upTo, Option.elim_some, List.length_take]
  exact Nat.min_le_left _ _

end Dict
end
end Coalestra
