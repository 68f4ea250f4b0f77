import Mathlib.Data.Finset.Card
import Coalestra.Lib.Grounded

/-! # Depth-first checks that carry the path they are on

`next a` lists what `a` needs; `none` stands for a need nobody meets. The check fails where a need is
not met and where it meets a name on its own path. Over finitely many names that each belong to one
element it ends, and it accepts exactly the grounded elements: it keeps no record of the elements it
has left, so shared parts are checked again and never mistaken for cycles. -/

namespace Coalestra
set_option autoImplicit false
set_option maxHeartbeats 250000

open Relation

section
variable {N K : Type}

/-- Asks `check` about one need after the other, up to the first that fails. -/
def checkEach (check : N → Option Bool) : List (Option N) → Option Bool
  | [] => some true
  | none :: _ => some false
  | some a :: rest =>
    match check a with
    | some true => checkEach check rest
    | other => other

/-- Asking about the needs of all of `xs` is asking `current`, which fails where a need is not met. -/
theorem all_of_checkEach {check : N → Option Bool} {need : K → Option N} {current : K → Bool}
    (hnone : ∀ x, need x = none → current x = false)
    (hsome : ∀ x a r, need x = some a → check a = some r → current x = r) {xs : List K} {b : Bool}
    (h : checkEach check (xs.map need) = some b) : xs.all current = b := by
  induction xs with
  | nil =>
    rw [List.map_nil, checkEach, Option.some.injEq] at h
    exact h
  | cons x xs ih =>
    rw [List.map_cons] at h
    rw [List.all_cons]
    cases hneed : need x with
    | none =>
      rw [hneed, checkEach, Option.some.injEq] at h
      rw [hnone x hneed, Bool.false_and, h]
    | some a =>
      rw [hneed, checkEach] at h
      cases hcheck : check a with
      | none => simp [hcheck] at h
      | some r =>
        rw [hsome x a r hneed hcheck]
        cases r with
        | false =>
          rw [hcheck, Option.some.injEq] at h
          rw [Bool.false_and, h]
        | true =>
          rw [hcheck] at h
          rw [Bool.true_and]
          exact ih h

/-- Everything `a` needs is met by `parts`. -/
def NeedsMet (next : N → List (Option N)) (a : N) (parts : List N) : Prop :=
  next a = parts.map some

/-- `a` and whatever it needs, in any number of steps, is met without a cycle. -/
def Settled (next : N → List (Option N)) : N → Prop := Grounded (NeedsMet next)

theorem NeedsMet.unique {next : N → List (Option N)} {a : N} {parts parts' : List N}
    (h : NeedsMet next a parts) (h' : NeedsMet next a parts') : parts = parts' :=
  List.map_injective_iff.mpr (Option.some_injective N) (h.symm.trans h')

theorem settled_of_next {next : N → List (Option N)} {a : N}
    (h : ∀ need ∈ next a, ∃ b, need = some b ∧ Settled next b) : Settled next a := by
  have hmet : ∃ parts : List N, next a = parts.map some := by
    have hall : ∀ needs : List (Option N), (∀ need ∈ needs, ∃ b, need = some b) →
        ∃ parts : List N, needs = parts.map some := by
      intro needs
      induction needs with
      | nil => exact fun _ => ⟨[], rfl⟩
      | cons need needs ih =>
        intro hneeds
        obtain ⟨b, rfl⟩ := hneeds need List.mem_cons_self
        obtain ⟨parts, rfl⟩ := ih fun n hn => hneeds n (List.mem_cons_of_mem _ hn)
        exact ⟨b :: parts, rfl⟩
    refine hall _ fun need hneed => ?_
    obtain ⟨b, hb, _⟩ := h need hneed
    exact ⟨b, hb⟩
  obtain ⟨parts, hparts⟩ := hmet
  refine Grounded.intro hparts fun p hp => ?_
  obtain ⟨b, hb, hset⟩ := h (some p) (hparts ▸ List.mem_map_of_mem hp)
  rw [Option.some.injEq] at hb
  exact hb ▸ hset

theorem Settled.next_settled {next : N → List (Option N)} {a : N} (h : Settled next a) :
    ∀ need ∈ next a, ∃ b, need = some b ∧ Settled next b := by
  cases h with
  | intro hmet hparts =>
    intro need hneed
    rw [NeedsMet] at hmet
    rw [hmet, List.mem_map] at hneed
    obtain ⟨b, hb, rfl⟩ := hneed
    exact ⟨b, rfl, hparts b hb⟩

theorem settled_iff {next : N → List (Option N)} {a : N} :
    Settled next a ↔ ∀ need ∈ next a, ∃ b, need = some b ∧ Settled next b :=
  ⟨Settled.next_settled, settled_of_next⟩

/-- `b` is needed by `a` and there. -/
def Needs (next : N → List (Option N)) (a b : N) : Prop := some b ∈ next a

theorem Settled.of_needs {next : N → List (Option N)} {a b : N} (h : Settled next a)
    (hab : Needs next a b) : Settled next b := by
  obtain ⟨c, hc, hset⟩ := h.next_settled _ hab
  rw [Option.some.injEq] at hc
  exact hc ▸ hset

/-- Everything in the closure of a settled element is settled. -/
theorem Settled.of_reaches {next : N → List (Option N)} {a b : N} (h : Settled next a)
    (hab : ReflTransGen (Needs next) a b) : Settled next b := by
  induction hab with
  | refl => exact h
  | tail _ hbc ih => exact ih.of_needs hbc

/-- A settled element is on no cycle. -/
theorem Settled.acyclic {next : N → List (Option N)} {a : N} (h : Settled next a) :
    ¬ TransGen (Needs next) a a := by
  unfold Settled at h
  induction h with
  | intro hmet _ ih =>
    intro hcycle
    obtain ⟨b, hab, hba⟩ := TransGen.head'_iff.mp hcycle
    have hb := hab
    rw [Needs, hmet, List.mem_map] at hb
    obtain ⟨p, hp, hpb⟩ := hb
    rw [Option.some.injEq] at hpb
    subst hpb
    exact ih p hp (TransGen.tail' hba hab)

/-- A loop whose every check answers answers itself. -/
theorem checkEach_eq {check : N → Option Bool} {good : N → Prop} :
    ∀ {needs : List (Option N)},
      (∀ a, some a ∈ needs → ∃ b, check a = some b ∧ (b = true ↔ good a)) →
      ∃ b, checkEach check needs = some b ∧
        (b = true ↔ ∀ need ∈ needs, ∃ a, need = some a ∧ good a)
  | [], _ => ⟨true, rfl, by simp⟩
  | none :: rest, _ => ⟨false, rfl, by simp⟩
  | some a :: rest, h => by
      obtain ⟨b, hb, hgood⟩ := h a List.mem_cons_self
      obtain ⟨c, hc, hrest⟩ := checkEach_eq fun b hb => h b (List.mem_cons_of_mem _ hb)
      cases b with
      | false =>
        refine ⟨false, by rw [checkEach, hb], ?_⟩
        have hbad : ¬ good a := by simpa using hgood
        simp [hbad]
      | true =>
        refine ⟨c, by rw [checkEach, hb]; exact hc, ?_⟩
        have hga : good a := by simpa using hgood
        simp only [List.mem_cons, forall_eq_or_imp, Option.some.injEq, exists_eq_left', hga,
          true_and]
        exact hrest

variable [DecidableEq K]

/-- The check itself; `none` when the fuel is spent. -/
def pathCheck (name : N → K) (next : N → List (Option N)) : ℕ → List K → N → Option Bool
  | 0, _, _ => none
  | fuel + 1, path, a =>
    if next a = [] then some true
    else if name a ∈ path then some false
    else checkEach (pathCheck name next fuel (name a :: path)) (next a)

/-- The elements a check may meet: finitely many names, each of one element. -/
structure Named (name : N → K) (next : N → List (Option N)) (names : Finset K) (M : N → Prop) :
    Prop where
  known : ∀ a, M a → name a ∈ names
  one : ∀ a b, M a → M b → name a = name b → a = b
  needs : ∀ a b, M a → Needs next a b → M b

/-- The names on the path are those of elements that lead to `a`. -/
def OnPath (name : N → K) (next : N → List (Option N)) (M : N → Prop) (path : List K) (a : N) :
    Prop :=
  ∀ p ∈ path, ∃ b, M b ∧ name b = p ∧ TransGen (Needs next) b a

section
variable {name : N → K} {next : N → List (Option N)} {names : Finset K} {M : N → Prop}

/-- A path of different names is no longer than the names there are. -/
theorem OnPath.length_le (hM : Named name next names M) {path : List K} {a : N}
    (hpath : OnPath name next M path a) (hnodup : path.Nodup) : path.length ≤ names.card := by
  have hsub : path.toFinset ⊆ names := by
    intro p hp
    obtain ⟨b, hb, rfl, _⟩ := hpath p (List.mem_toFinset.mp hp)
    exact hM.known b hb
  have hle := Finset.card_le_card hsub
  rwa [List.toFinset_card_of_nodup hnodup] at hle

omit [DecidableEq K] in
/-- An element whose name is on the path is the one that put it there: it is on a cycle. -/
theorem OnPath.not_settled (hM : Named name next names M) {path : List K} {a : N} (ha : M a)
    (hpath : OnPath name next M path a) (hon : name a ∈ path) : ¬ Settled next a := by
  obtain ⟨b, hb, hname, hba⟩ := hpath _ hon
  have hself : b = a := hM.one b a hb ha hname
  subst hself
  exact fun hset => hset.acyclic hba

omit [DecidableEq K] in
theorem OnPath.child {path : List K} {a b : N} (ha : M a) (hpath : OnPath name next M path a)
    (hab : Needs next a b) : OnPath name next M (name a :: path) b := by
  intro p hp
  rcases List.mem_cons.mp hp with rfl | hp
  · exact ⟨a, ha, rfl, .single hab⟩
  · obtain ⟨c, hc, hname, hca⟩ := hpath p hp
    exact ⟨c, hc, hname, hca.tail hab⟩

/-- With fuel for a path through every name the check ends and accepts exactly what is settled. -/
theorem pathCheck_settled (hM : Named name next names M) :
    ∀ {fuel : ℕ} {path : List K} {a : N}, M a → path.Nodup → OnPath name next M path a →
      names.card < fuel + path.length →
      ∃ b, pathCheck name next fuel path a = some b ∧ (b = true ↔ Settled next a)
  | 0, path, a, _, hnodup, hpath, hfuel => by
      have hle := hpath.length_le hM hnodup
      omega
  | fuel + 1, path, a, ha, hnodup, hpath, hfuel => by
      rw [pathCheck]
      by_cases hnil : next a = []
      · rw [if_pos hnil]
        have hset : Settled next a := settled_of_next (by simp [hnil])
        exact ⟨true, rfl, by simp [hset]⟩
      rw [if_neg hnil]
      by_cases hon : name a ∈ path
      · have hnot := hpath.not_settled hM ha hon
        exact ⟨false, by rw [if_pos hon], by simp [hnot]⟩
      rw [if_neg hon]
      have hchild : ∀ b, some b ∈ next a →
          ∃ r, pathCheck name next fuel (name a :: path) b = some r ∧
            (r = true ↔ Settled next b) := by
        intro b hab
        have hnodup' : (name a :: path).Nodup := List.nodup_cons.mpr ⟨hon, hnodup⟩
        have hlen : names.card < fuel + (name a :: path).length := by
          rw [List.length_cons]
          omega
        exact pathCheck_settled hM (hM.needs a b ha hab) hnodup' (hpath.child ha hab) hlen
      obtain ⟨r, hr, hiff⟩ := checkEach_eq hchild
      exact ⟨r, hr, hiff.trans settled_iff.symm⟩

end

end
end Coalestra
