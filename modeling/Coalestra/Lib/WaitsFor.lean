import Mathlib.Data.Fintype.Card
import Mathlib.Data.Fintype.EquivFin
import Mathlib.Logic.Relation

/-! # Waits-for relations

`R a b` says that `a` waits for `b`. A system makes progress when the relation has no cycle and
everything that is blocked waits for something unfinished (`exists_enabled`). A new wait keeps the
relation acyclic exactly when its target does not wait back (`Acyclic.extend`). Where the waiting
parties form groups, it is enough that the groups do not wait in a circle (`wellFounded_groups`). -/

namespace Coalestra
set_option autoImplicit false
set_option maxHeartbeats 250000

open Relation

/-- No party waits for itself, directly or through others. -/
def Acyclic {α : Type} (R : α → α → Prop) : Prop := ∀ a, ¬ TransGen R a a

section
variable {α : Type} {R R' : α → α → Prop}

theorem Acyclic.mono (h : Acyclic R) (hsub : ∀ a b, R' a b → R a b) : Acyclic R' :=
  fun a ha => h a (TransGen.mono hsub _ _ ha)

/-- A relation that lowers a rank has no cycle. -/
theorem Acyclic.of_lt {β : Type} [Preorder β] (rank : α → β)
    (h : ∀ a b, R a b → rank b < rank a) : Acyclic R := by
  have hlt : ∀ {a b}, TransGen R a b → rank b < rank a := by
    intro a b hab
    induction hab with
    | single hs => exact h _ _ hs
    | tail _ hs ih => exact (h _ _ hs).trans ih
  exact fun a ha => lt_irrefl _ (hlt ha)

theorem Acyclic.of_rank (rank : α → ℕ) (h : ∀ a b, R a b → rank b < rank a) : Acyclic R :=
  Acyclic.of_lt rank h

/-- The waits of one party `p` are extended by parties that do not wait for `p`. -/
theorem Acyclic.extend (h : Acyclic R) {p : α} {N : α → Prop}
    (hsub : ∀ a b, R' a b → R a b ∨ a = p ∧ N b)
    (hN : ∀ b, N b → ¬ ReflTransGen R b p) : Acyclic R' := by
  -- A path uses a new wait at most once: after it, the path cannot come back to `p`.
  have hpath : ∀ {x y}, TransGen R' x y →
      TransGen R x y ∨ ReflTransGen R x p ∧ ∃ b, N b ∧ ReflTransGen R b y := by
    intro x y hxy
    induction hxy with
    | single hs =>
      rcases hsub _ _ hs with hr | ⟨rfl, hn⟩
      · exact .inl (.single hr)
      · exact .inr ⟨.refl, _, hn, .refl⟩
    | @tail y z _ hs ih =>
      rcases hsub _ _ hs with hr | ⟨rfl, hn⟩
      · rcases ih with ih | ⟨hx, b, hb, hby⟩
        · exact .inl (ih.tail hr)
        · exact .inr ⟨hx, b, hb, hby.tail hr⟩
      · rcases ih with ih | ⟨_, b, hb, hby⟩
        · exact .inr ⟨ih.to_reflTransGen, _, hn, .refl⟩
        · exact absurd hby (hN b hb)
  intro a ha
  rcases hpath ha with hr | ⟨hap, b, hb, hba⟩
  · exact h a hr
  · exact hN b hb (hba.trans hap)

/-- Finitely many parties without a cycle: every chain of waits ends. -/
theorem Acyclic.wellFounded {R : ℕ → ℕ → Prop} {n : ℕ} (h : Acyclic R)
    (hn : ∀ a b, R a b → a < n ∧ b < n) : WellFounded fun b a => R a b := by
  let S : Fin n → Fin n → Prop := fun b a => TransGen R a.1 b.1
  have htrans : IsTrans (Fin n) S := ⟨fun _ _ _ hab hbc => hbc.trans hab⟩
  have hirrefl : Std.Irrefl S := ⟨fun a => h a.1⟩
  have hwf : WellFounded S := Finite.wellFounded_of_trans_of_irrefl S
  have hacc : ∀ a : Fin n, Acc (fun b a => R a b) a.1 := by
    intro a
    induction a using hwf.induction with
    | _ a ih => exact ⟨_, fun b hb => ih ⟨b, (hn _ _ hb).2⟩ (.single hb)⟩
  constructor
  intro a
  by_cases ha : a < n
  · exact hacc ⟨a, ha⟩
  · exact ⟨_, fun b hb => absurd (hn _ _ hb).1 ha⟩

/-- Parties wait inside their group for a later party, or for a party whose group their own group
waits for. If the groups do not wait in a circle, every chain of waits ends. -/
theorem wellFounded_groups {A : ℕ → ℕ → Prop} {G : ℕ → ℕ → Prop} (group : ℕ → Option ℕ) (n : ℕ)
    (hG : WellFounded fun q p => G p q)
    (hA : ∀ i j, A i j → j < n ∧ (group j = group i ∧ i < j ∨
      ∃ q, group j = some q ∧ ∀ p, group i = some p → G p q)) :
    WellFounded fun j i => A i j := by
  -- Inside a group the parties only climb, so the distance to `n` falls.
  have hinner : ∀ g,
      (∀ q, (∀ p, g = some p → G p q) → ∀ j, group j = some q → Acc (fun j i => A i j) j) →
      ∀ d i, n - i ≤ d → group i = g → Acc (fun j i => A i j) i := by
    intro g hout d
    induction d with
    | zero =>
      intro i hi hg
      refine ⟨_, fun j hj => ?_⟩
      obtain ⟨hlt, ⟨_, hij⟩ | ⟨q, hq, hp⟩⟩ := hA i j hj
      · omega
      · exact hout q (fun p hp' => hp p (hg.trans hp')) j hq
    | succ d ih =>
      intro i hi hg
      refine ⟨_, fun j hj => ?_⟩
      obtain ⟨hlt, ⟨hgj, hij⟩ | ⟨q, hq, hp⟩⟩ := hA i j hj
      · exact ih j (by omega) (hgj.trans hg)
      · exact hout q (fun p hp' => hp p (hg.trans hp')) j hq
  have hsome : ∀ p i, group i = some p → Acc (fun j i => A i j) i := by
    intro p
    induction p using hG.induction with
    | _ p ih =>
      intro i hi
      refine hinner (some p) ?_ (n - i) i le_rfl hi
      exact fun q hq j hj => ih q (hq p rfl) j hj
  constructor
  intro i
  cases hi : group i with
  | some p => exact hsome p i hi
  | none =>
    exact hinner none (fun q _ j hj => hsome q j hj) (n - i) i le_rfl hi

/-- If everything unfinished is enabled or waits for something unfinished, and every chain of
waits ends, then everything unfinished leads along waits to something enabled. -/
theorem exists_enabled {A : α → α → Prop} {unfinished enabled : α → Prop}
    (hA : WellFounded fun b a => A a b)
    (h : ∀ a, unfinished a → enabled a ∨ ∃ b, A a b ∧ unfinished b) :
    ∀ a, unfinished a → ∃ b, ReflTransGen A a b ∧ enabled b := by
  intro a
  induction a using hA.induction with
  | _ a ih =>
    intro ha
    rcases h a ha with he | ⟨b, hab, hb⟩
    · exact ⟨a, .refl, he⟩
    · obtain ⟨c, hbc, hc⟩ := ih b hab hb
      exact ⟨c, .head hab hbc, hc⟩

end
end Coalestra
