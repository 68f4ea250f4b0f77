import Mathlib.Algebra.BigOperators.Group.List.Defs
import Mathlib.Algebra.GroupWithZero.Nat
import Mathlib.Logic.Relation

/-! # Runs of a labelled step function

A step function `step : S → L → Option S` refuses a label by answering `none`. `RunOf step ok` is
the inductive type of runs whose every label meets the condition `ok` on the state it starts from.
An invariant is proved once for a step and holds along every run (`RunOf.invariant`); a potential
that every counted step consumes bounds how often it can occur (`RunOf.countAlong_le`). A
potential that is a sum over parties changes by the part of the party that moves (`sum_map_set`), and
so does a count (`countP_set_add`). -/

namespace Coalestra
set_option autoImplicit false
set_option maxHeartbeats 250000

section
variable {S L : Type} {step : S → L → Option S} {ok : S → L → Prop}

/-- Runs from left to right; `ok` is asked of every state and label before the step. -/
inductive RunOf (step : S → L → Option S) (ok : S → L → Prop) : S → List L → S → Prop
  | nil (s : S) : RunOf step ok s [] s
  | cons {s t u : S} {l : L} {ls : List L} :
      ok s l → step s l = some t → RunOf step ok t ls u → RunOf step ok s (l :: ls) u

/-- Runs without a side condition. -/
abbrev Run (step : S → L → Option S) : S → List L → S → Prop := RunOf step fun _ _ => True

/-- The run as a function of its labels, with a condition that can be evaluated. -/
def execOf (step : S → L → Option S) (ok : S → L → Bool) : S → List L → Option S
  | s, [] => some s
  | s, l :: ls => if ok s l then (step s l).bind fun t => execOf step ok t ls else none

abbrev exec (step : S → L → Option S) : S → List L → Option S := execOf step fun _ _ => true

theorem execOf_run {ok : S → L → Bool} : ∀ {ls : List L} {s t : S},
    execOf step ok s ls = some t → RunOf step (fun s l => ok s l = true) s ls t
  | [], s, t, h => by
      rw [execOf, Option.some.injEq] at h
      rw [h]
      exact .nil t
  | l :: ls, s, t, h => by
      rw [execOf] at h
      split at h
      · rename_i hok
        rw [Option.bind_eq_some_iff] at h
        obtain ⟨u, hu, hrest⟩ := h
        exact .cons hok hu (execOf_run hrest)
      · cases h

theorem RunOf.mono {ok' : S → L → Prop} {s t : S} {ls : List L} (h : RunOf step ok s ls t)
    (hok : ∀ s l, ok s l → ok' s l) : RunOf step ok' s ls t := by
  induction h with
  | nil s => exact .nil s
  | cons hl hs _ ih => exact .cons (hok _ _ hl) hs ih

/-- A condition on the labels alone is checked label by label. -/
theorem RunOf.and_labels {p : L → Prop} {s t : S} {ls : List L} (h : RunOf step ok s ls t)
    (hp : ∀ l ∈ ls, p l) : RunOf step (fun s l => ok s l ∧ p l) s ls t := by
  induction h with
  | nil s => exact .nil s
  | cons hok hs _ ih =>
    exact .cons ⟨hok, hp _ List.mem_cons_self⟩ hs
      (ih fun l hl => hp l (List.mem_cons_of_mem _ hl))

theorem RunOf.of_labels {p : L → Prop} {s t : S} {ls : List L} (h : Run step s ls t)
    (hp : ∀ l ∈ ls, p l) : RunOf step (fun _ l => p l) s ls t :=
  (h.and_labels hp).mono fun _ _ hl => hl.2

theorem exec_run {s t : S} {ls : List L} (h : exec step s ls = some t) : Run step s ls t :=
  (execOf_run h).mono fun _ _ _ => trivial

theorem RunOf.append {s t u : S} {ls ms : List L} (h : RunOf step ok s ls t)
    (h' : RunOf step ok t ms u) : RunOf step ok s (ls ++ ms) u := by
  induction h with
  | nil s => exact h'
  | cons hl hs _ ih => exact .cons hl hs (ih h')

theorem RunOf.split {s u : S} : ∀ {ls ms : List L}, RunOf step ok s (ls ++ ms) u →
    ∃ t, RunOf step ok s ls t ∧ RunOf step ok t ms u
  | [], ms, h => ⟨s, .nil s, h⟩
  | l :: ls, ms, .cons hl hs hrest => by
      obtain ⟨t, ht, hu⟩ := RunOf.split hrest
      exact ⟨t, .cons hl hs ht, hu⟩

/-- A longer run goes on from where a shorter one ends. -/
theorem RunOf.continues {ok' : S → L → Prop} {s t u : S} {ls ms : List L}
    (h : RunOf step ok s ls t) (h' : RunOf step ok' s (ls ++ ms) u) : RunOf step ok' t ms u := by
  induction h with
  | nil s => exact h'
  | cons _ hs _ ih =>
    cases h' with
    | cons _ hs' hrest =>
      rw [hs, Option.some.injEq] at hs'
      subst hs'
      exact ih hrest

/-- What a step preserves, a run preserves. -/
theorem RunOf.invariant {s t : S} {ls : List L} (I : S → Prop)
    (hstep : ∀ s l t, ok s l → I s → step s l = some t → I t)
    (h : RunOf step ok s ls t) (hs : I s) : I t := by
  induction h with
  | nil s => exact hs
  | cons hl hst _ ih => exact ih (hstep _ _ _ hl hs hst)

/-- A reflexive and transitive relation that holds across every step holds across every run. -/
theorem RunOf.related {s t : S} {ls : List L} (R : S → S → Prop) (hrefl : ∀ s, R s s)
    (htrans : ∀ {a b c}, R a b → R b c → R a c)
    (hstep : ∀ s l t, ok s l → step s l = some t → R s t)
    (h : RunOf step ok s ls t) : R s t := by
  induction h with
  | nil s => exact hrefl s
  | cons hl hst _ ih => exact htrans (hstep _ _ _ hl hst) ih

/-- Induction from the end of a run: what holds of the start and is kept by one more step. -/
theorem RunOf.history {s : S} {P : List L → S → Prop} (hnil : P [] s)
    (hsnoc : ∀ ls t l u, RunOf step ok s ls t → ok t l → step t l = some u → P ls t →
      P (ls ++ [l]) u) {t : S} {ls : List L} (h : RunOf step ok s ls t) : P ls t := by
  have aux : ∀ {mid t : S} {ms : List L}, RunOf step ok mid ms t →
      ∀ pre, RunOf step ok s pre mid → P pre mid → P (pre ++ ms) t := by
    intro mid t ms hrun
    induction hrun with
    | nil mid =>
      intro pre _ hP
      rwa [List.append_nil]
    | @cons mid next t l ms hl hst _ ih =>
      intro pre hpre hP
      have hnext := ih (pre ++ [l]) (hpre.append (.cons hl hst (.nil next)))
        (hsnoc pre mid l next hpre hl hst hP)
      rwa [List.append_assoc, List.singleton_append] at hnext
  simpa using aux h [] (.nil s) hnil

/-- How many labels of a run meet a condition on the state they start from. -/
def countAlong (step : S → L → Option S) (p : S → L → Bool) : S → List L → Nat
  | _, [] => 0
  | s, l :: ls => (if p s l then 1 else 0) + (step s l).elim 0 fun t => countAlong step p t ls

/-- A counted step consumes one unit of a potential that a step raises by no more than its label
supplies. -/
theorem RunOf.countAlong_le {s t : S} {ls : List L} (I : S → Prop) (potential : S → Nat)
    (supply : L → Nat) (p : S → L → Bool)
    (hI : ∀ s l t, ok s l → I s → step s l = some t → I t)
    (hstep : ∀ s l t, ok s l → I s → step s l = some t →
      potential t + (if p s l then 1 else 0) ≤ potential s + supply l)
    (h : RunOf step ok s ls t) (hs : I s) :
    countAlong step p s ls ≤ potential s + (ls.map supply).sum := by
  induction h with
  | nil s => exact Nat.zero_le _
  | @cons s t u l ls hl hst _ ih =>
    have h1 := ih (hI _ _ _ hl hs hst)
    have h2 := hstep _ _ _ hl hs hst
    rw [countAlong, hst, Option.elim_some, List.map_cons, List.sum_cons]
    omega

/-! ## Sums over parties -/

/-- A sum over a list one of whose members changes. -/
theorem sum_map_set {α : Type} (f : α → ℕ) {a b : α} : ∀ {l : List α} {i : ℕ}, l[i]? = some a →
    ((l.set i b).map f).sum + f a = (l.map f).sum + f b
  | [], i, h => by simp at h
  | x :: xs, 0, h => by
      rw [List.getElem?_cons_zero, Option.some.injEq] at h
      simp only [List.set_cons_zero, List.map_cons, List.sum_cons, h]
      omega
  | x :: xs, i + 1, h => by
      rw [List.getElem?_cons_succ] at h
      have hrest := sum_map_set f (b := b) h
      simp only [List.set_cons_succ, List.map_cons, List.sum_cons]
      omega

/-- How often a property holds in a list one of whose members changes. -/
theorem countP_set_add {α : Type} (p : α → Bool) {l : List α} {i : ℕ} {a : α} (b : α)
    (h : l[i]? = some a) : (l.set i b).countP p + (if p a then 1 else 0) =
      l.countP p + if p b then 1 else 0 := by
  obtain ⟨hi, rfl⟩ := List.getElem?_eq_some_iff.mp h
  rw [List.countP_set hi]
  have hle : (if p l[i] then 1 else 0) ≤ l.countP p := by
    split
    · rename_i hp
      exact List.countP_pos_iff.mpr ⟨l[i], List.getElem_mem hi, hp⟩
    · exact Nat.zero_le _
  omega

end
end Coalestra
