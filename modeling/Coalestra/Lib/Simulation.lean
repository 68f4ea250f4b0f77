import Coalestra.Lib.Runs

/-! # Forward simulation

The steps of a concrete system show as operations of an abstract one, or as nothing. `opsAlong`
lists the operations of a run in order, and `RunOf.simulates` runs them. -/

namespace Coalestra
set_option autoImplicit false
set_option maxHeartbeats 250000

section
variable {S L O A : Type} {step : S → L → Option S} {ok : S → L → Prop}

def opsAlong (step : S → L → Option S) (op : S → L → Option O) : S → List L → List O
  | _, [] => []
  | s, l :: ls => (op s l).toList ++ (step s l).elim [] fun t => opsAlong step op t ls

def runOps (apply : A → O → Option A) : A → List O → Option A
  | a, [] => some a
  | a, o :: os => (apply a o).bind fun b => runOps apply b os

theorem runOps_append {apply : A → O → Option A} : ∀ {os ps : List O} {a : A},
    runOps apply a (os ++ ps) = (runOps apply a os).bind fun b => runOps apply b ps
  | [], ps, a => rfl
  | o :: os, ps, a => by
      rw [List.cons_append, runOps, runOps, Option.bind_assoc]
      refine Option.bind_congr fun b _ => ?_
      exact runOps_append

/-- A longer run shows the operations of a shorter one first. -/
theorem opsAlong_append {op : S → L → Option O} {s t : S} {ls ms : List L}
    (h : RunOf step ok s ls t) :
    opsAlong step op s (ls ++ ms) = opsAlong step op s ls ++ opsAlong step op t ms := by
  induction h with
  | nil s => rfl
  | cons hl hs _ ih =>
    rw [List.cons_append, opsAlong, opsAlong, hs]
    simp [ih]

/-- A relation between concrete and abstract states that every step keeps, by the operation it
shows, holds at the end of a run. -/
theorem RunOf.simulates {apply : A → O → Option A} {op : S → L → Option O} (R : S → A → Prop)
    (hstep : ∀ s l t a, ok s l → R s a → step s l = some t →
      ∃ b, runOps apply a (op s l).toList = some b ∧ R t b)
    {s t : S} {ls : List L} {a : A} (h : RunOf step ok s ls t) (hs : R s a) :
    ∃ b, runOps apply a (opsAlong step op s ls) = some b ∧ R t b := by
  induction h generalizing a with
  | nil s => exact ⟨a, rfl, hs⟩
  | cons hl hst _ ih =>
    obtain ⟨b, hb, hR⟩ := hstep _ _ _ a hl hs hst
    obtain ⟨c, hc, hR'⟩ := ih hR
    refine ⟨c, ?_, hR'⟩
    rw [opsAlong, hst, runOps_append, hb]
    exact hc

end
end Coalestra
