import Mathlib.Data.Fintype.Card
import Mathlib.Data.Finset.Card
import Coalestra.Lib.Grounded

/-! # Walks that stop where they cross themselves

A walk over the graph `next` records the tracked vertices it has entered and goes no further from
one that is recorded. Over finitely many vertices such walks end unless untracked vertices lead
round in a circle (`fresh_induction`), and they still come to everything that can be reached: a path
that comes back to where it started can be cut short (`Avoids.cut`). -/

namespace Coalestra
set_option autoImplicit false
set_option maxHeartbeats 250000

open Relation

section
variable {N : Type} {next : N → List N} {tracked : N → Prop}

/-- `a` leads to `b`. -/
def Leads (next : N → List N) (a b : N) : Prop := b ∈ next a

/-- `a` leads to `b` and is not tracked. -/
def LeadsFreely (next : N → List N) (tracked : N → Prop) (a b : N) : Prop :=
  ¬ tracked a ∧ b ∈ next a

/-- A path from `a` to `b` that goes on from no vertex of `S`. -/
def Avoids (next : N → List N) (S : Finset N) : N → N → Prop :=
  ReflTransGen fun a b => b ∈ next a ∧ a ∉ S

theorem Avoids.mono {S T : Finset N} (h : S ⊆ T) {a b : N} (hab : Avoids next T a b) :
    Avoids next S a b :=
  ReflTransGen.mono (fun _ _ hstep => ⟨hstep.1, fun hmem => hstep.2 (h hmem)⟩) a b hab

theorem avoids_empty {a b : N} : Avoids next ∅ a b ↔ ReflTransGen (Leads next) a b := by
  constructor
  · exact ReflTransGen.mono (fun _ _ hstep => hstep.1) a b
  · exact ReflTransGen.mono (fun _ _ hstep => ⟨hstep, Finset.notMem_empty _⟩) a b

variable [DecidableEq N]

/-- A path that leaves its first vertex need not come back to it. -/
theorem Avoids.cut {S : Finset N} {a b : N} (h : Avoids next S a b) :
    b = a ∨ a ∉ S ∧ ∃ c ∈ next a, Avoids next (insert a S) c b := by
  induction h with
  | refl => exact .inl rfl
  | @tail b c _ hstep ih =>
    right
    obtain ⟨hbc, hb⟩ := hstep
    by_cases hba : b = a
    · subst hba
      exact ⟨hb, c, hbc, .refl⟩
    · obtain ⟨ha, d, hd, hdb⟩ := ih.resolve_left hba
      refine ⟨ha, d, hd, hdb.tail ⟨hbc, fun hmem => ?_⟩⟩
      exact (Finset.mem_insert.mp hmem).elim hba hb

/-- What an untracked vertex needs for walks from it to end; a tracked one needs nothing. -/
def FreeNeeds (next : N → List N) (tracked : N → Prop) (a : N) (parts : List N) : Prop :=
  tracked a ∧ parts = [] ∨ ¬ tracked a ∧ parts = next a

omit [DecidableEq N] in
theorem partOf_freeNeeds {a b : N} (h : PartOf (FreeNeeds next tracked) a b) :
    LeadsFreely next tracked a b := by
  obtain ⟨parts, ⟨_, rfl⟩ | ⟨hfree, rfl⟩, hb⟩ := h
  · cases hb
  · exact ⟨hfree, hb⟩

omit [DecidableEq N] in
/-- Where no untracked vertices lead round in a circle, untracked paths end. -/
theorem grounded_of_acyclic [Finite N] {a : N} (h : ∀ c, ReflTransGen (Leads next) a c →
    ¬ TransGen (LeadsFreely next tracked) c c) : Grounded (FreeNeeds next tracked) a := by
  classical
  by_contra hnot
  have hoption : ∀ x ∈ (Set.univ : Set N), ∃ parts, FreeNeeds next tracked x parts := by
    intro x _
    by_cases hx : tracked x
    · exact ⟨[], .inl ⟨hx, rfl⟩⟩
    · exact ⟨next x, .inr ⟨hx, rfl⟩⟩
  obtain ⟨c, hac, hcc⟩ := exists_cycle_of_not_grounded Set.finite_univ
    (fun _ _ _ _ => Set.mem_univ _) hoption (Set.mem_univ a) hnot
  refine h c (ReflTransGen.mono (fun _ _ hstep => (partOf_freeNeeds hstep).2) a c hac) ?_
  exact TransGen.mono (fun _ _ hstep => partOf_freeNeeds hstep) c c hcc

/-- Induction along walks: outside on the tracked vertices that are not recorded yet, inside on how
far untracked vertices lead. -/
theorem fresh_induction [Fintype N] (next : N → List N) (tracked : N → Prop)
    {motive : Finset N → N → Prop}
    (hfree : ∀ S a, ¬ tracked a → (∀ b ∈ next a, motive S b) → motive S a)
    (hseen : ∀ S a, tracked a → a ∈ S → motive S a)
    (hfresh : ∀ S a, tracked a → a ∉ S → (∀ b ∈ next a, motive (insert a S) b) → motive S a)
    {root : N} (hends : ∀ c, ReflTransGen (Leads next) root c →
      ¬ TransGen (LeadsFreely next tracked) c c) (S : Finset N) : motive S root := by
  have hall : ∀ (n : ℕ) (S : Finset N), Sᶜ.card = n → ∀ a, ReflTransGen (Leads next) root a →
      motive S a := by
    intro n
    induction n using Nat.strong_induction_on with
    | _ n ih =>
      intro S hcard a ha
      have hground : Grounded (FreeNeeds next tracked) a :=
        grounded_of_acyclic fun c hc => hends c (ha.trans hc)
      induction hground with
      | @intro a parts hneeds _ ihparts =>
        rcases hneeds with ⟨htracked, _⟩ | ⟨hnot, rfl⟩
        · by_cases hmem : a ∈ S
          · exact hseen S a htracked hmem
          · refine hfresh S a htracked hmem fun b hb => ?_
            have hlt : (insert a S)ᶜ.card < n := by
              rw [Finset.compl_insert, ← hcard]
              exact Finset.card_erase_lt_of_mem (Finset.mem_compl.mpr hmem)
            exact ih _ hlt _ rfl b (ha.tail hb)
        · exact hfree S a hnot fun b hb => ihparts b hb (ha.tail hb)
  exact hall _ S rfl root .refl

end
end Coalestra
