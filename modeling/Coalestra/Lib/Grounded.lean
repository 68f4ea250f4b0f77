import Mathlib.Data.Fintype.Card
import Mathlib.Data.Set.Finite.Basic
import Mathlib.Order.WellFounded
import Mathlib.Logic.Relation

/-! # What can be had without going in circles

`R a parts` reads: `a` can be had from all of `parts`. An element is grounded if it has such an
option whose parts are all grounded, so the chain of options ends. Where every element has an option
and there are finitely many, an element that is not grounded leads into a cycle. -/

namespace Coalestra
set_option autoImplicit false
set_option maxHeartbeats 250000

open Relation

section
variable {α : Type} {R : α → List α → Prop}

inductive Grounded (R : α → List α → Prop) : α → Prop
  | intro {a : α} {parts : List α} (h : R a parts) (hparts : ∀ p ∈ parts, Grounded R p) :
      Grounded R a

/-- Every option of an element that is not grounded has such an element among its parts. -/
theorem exists_ungrounded_part {a : α} (ha : ¬ Grounded R a) {parts : List α} (h : R a parts) :
    ∃ p ∈ parts, ¬ Grounded R p := by
  by_contra hnone
  push Not at hnone
  exact ha (.intro h hnone)

/-- A set each of whose options leads back into the set has no grounded element. -/
theorem not_grounded_of_closed {S : α → Prop}
    (hS : ∀ a, S a → ∀ parts, R a parts → ∃ p ∈ parts, S p) {a : α} (ha : S a) :
    ¬ Grounded R a := by
  intro hg
  induction hg with
  | intro h _ ih =>
    obtain ⟨p, hp, hSp⟩ := hS _ ha _ h
    exact ih p hp hSp

/-- `p` is among the parts of an option of `a`. -/
def PartOf (R : α → List α → Prop) (a p : α) : Prop := ∃ parts, R a parts ∧ p ∈ parts

/-- In a finite set that is closed under parts and has an option for every element, whatever is not
grounded leads into a cycle. -/
theorem exists_cycle_of_not_grounded {U : Set α} (hfinite : U.Finite)
    (hclosed : ∀ a ∈ U, ∀ p, PartOf R a p → p ∈ U) (hoption : ∀ a ∈ U, ∃ parts, R a parts)
    {a : α} (ha : a ∈ U) (hg : ¬ Grounded R a) :
    ∃ c, ReflTransGen (PartOf R) a c ∧ TransGen (PartOf R) c c := by
  by_contra hnone
  push Not at hnone
  let X : Set α := { x | x ∈ U ∧ ¬ Grounded R x ∧ ReflTransGen (PartOf R) a x }
  have hX : X.Finite := hfinite.subset fun x hx => hx.1
  have : Finite X := hX
  let S : X → X → Prop := fun y x => TransGen (PartOf R) x.1 y.1
  have htrans : IsTrans X S := ⟨fun _ _ _ hab hbc => hbc.trans hab⟩
  have hirrefl : Std.Irrefl S := ⟨fun x => hnone x.1 x.2.2.2⟩
  have hwf : WellFounded S := Finite.wellFounded_of_trans_of_irrefl S
  -- An element of `X` that leads to no other contradicts the option it has.
  obtain ⟨m, -, hmin⟩ := hwf.has_min Set.univ ⟨⟨a, ha, hg, .refl⟩, trivial⟩
  obtain ⟨hmU, hmg, hreach⟩ := m.2
  obtain ⟨parts, hparts⟩ := hoption m.1 hmU
  obtain ⟨p, hp, hpg⟩ := exists_ungrounded_part hmg hparts
  have hstep : PartOf R m.1 p := ⟨parts, hparts, hp⟩
  exact hmin ⟨p, hclosed m.1 hmU p hstep, hpg, hreach.tail hstep⟩ trivial (.single hstep)

end
end Coalestra
