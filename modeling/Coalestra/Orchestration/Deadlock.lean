import Coalestra.Orchestration.Waiting

/-! # Deadlock freedom of shared acquisition

A producer settles its futures only after its whole batch is resolved, so two flights can wait for
each other although the keys depend on each other in no circle. Without such a circle the machine
never gets stuck; the join that closes one is the only way into a deadlock. -/

namespace Coalestra
set_option autoImplicit false
set_option maxHeartbeats 250000

open Relation

section
variable {K V : Type} [DecidableEq K]

/-! ## Every run -/

/-- What runs keep while nothing joins backwards. -/
structure FlightInvariant (b : Builder K V) (s : State K V) : Prop where
  shape : Shape b s
  registered : RegisteredOpen s
  acyclic : Acyclic s.FlightWaits

theorem flightInvariant_initial (b : Builder K V) (now : ℚ) (cache : AsyncMemoryCache K V)
    (revisions : List (Dict K ℕ)) : FlightInvariant b (State.initial now cache revisions) := by
  refine ⟨shape_initial b now cache revisions, ?_, ?_⟩
  · intro k q hk
    simp [State.initial] at hk
  · refine Acyclic.of_rank (fun _ => 0) ?_
    rintro p q ⟨i, f, key, hf, _⟩
    simp [State.frame?, State.initial] at hf

theorem Stepped.flightInvariant {b : Builder K V} {s t : State K V} {l : Label K V}
    (h : Stepped b s l t) (hl : JoinsForward s l) (hs : FlightInvariant b s) :
    FlightInvariant b t :=
  ⟨h.shape hs.shape, h.registeredOpen hs.registered, h.acyclic hs.shape hl hs.acyclic⟩

/-- A frame that reserves keys moves on to await their futures. -/
theorem move_reserving {b : Builder K V} {s : State K V} {f : Frame K V} {m : Step K V} {key : K}
    (hkey : key ∈ f.body.reserving) (h : b.move s f .go = some m) :
    m.body.futures = (s.reserve f.scope f.body.reserving).1 := by
  obtain ⟨c, body⟩ := f
  cases body with
  | resolveMany keys l p =>
    cases p with
    | reserving shared => cases h; rfl
    | _ => cases hkey
  | refresh k p =>
    cases p with
    | reserving => cases h; rfl
    | _ => cases hkey
  | _ => cases hkey

/-- Joining a flight that waits for the joiner closes a circle. -/
theorem closes_circle {b : Builder K V} {s t : State K V} {l : Label K V}
    (hs : FlightInvariant b s) (h : b.step s l = some t) (hl : ¬ JoinsForward s l) :
    ¬ Acyclic t.FlightWaits := by
  unfold JoinsForward at hl
  push Not at hl
  obtain ⟨i, f, p, q, key, rfl, hf, hp, hkey, hq, hback⟩ := hl
  obtain ⟨f', m, hf', hm, rfl⟩ := step_run.mp h
  rw [hf, Option.some.injEq] at hf'
  subst hf'
  have hstep : Stepped b s (.run i .go) (s.apply i f m) := .run hf (move_cases hm)
  have hfutures := move_reserving hkey hm
  have hmem : (key, q) ∈ m.body.futures := by
    rw [hfutures]
    unfold State.reserve
    dsimp only
    split <;> exact List.mem_map.mpr ⟨key, hkey, by rw [hq]; rfl⟩
  have hmoved := frame?_apply_self m hf
  -- The step settles nothing, so the flight is still open and the old waits remain.
  have hfuture : ∀ r k, s.future r k = none → (s.apply i f m).future r k = none := by
    intro r k hnone
    rw [future_eq] at hnone ⊢
    rw [frame?_apply m hf]
    split
    · show m.body.settlement k = none
      rename_i hri
      rw [hri, hf, Option.bind_some] at hnone
      rcases (move_cases hm).settlement k with hsame | ⟨hset, _⟩
      · rw [hsame, hnone]
      · exfalso
        obtain ⟨c, body⟩ := f
        cases body with
        | resolveMany keys l p =>
          cases p with
          | reserving shared => cases hm; cases hset
          | _ => cases hkey
        | refresh k' p =>
          cases p with
          | reserving => cases hm; cases hset
          | _ => cases hkey
        | _ => cases hkey
    · split
      · cases hg : m.spawn with
        | none => rfl
        | some g => exact (move_cases hm).spawn_settlement hg k
      · exact hnone
  have hnew : (s.apply i f m).FlightWaits p q :=
    ⟨i, _, key, hmoved, hp, hmem, hfuture q key (hs.registered key q hq)⟩
  have hkeep : ∀ x y, s.FlightWaits x y → (s.apply i f m).FlightWaits x y := by
    rintro x y ⟨j, g, k, hg, hx, hmem', hnone⟩
    have hji : j ≠ i := by
      rintro rfl
      rw [hf, Option.some.injEq] at hg
      subst hg
      obtain ⟨c, body⟩ := f
      cases body with
      | resolveMany keys l ph =>
        cases ph with
        | reserving shared => cases hmem'
        | _ => cases hkey
      | refresh k' ph =>
        cases ph with
        | reserving => cases hmem'
        | _ => cases hkey
      | _ => cases hkey
    exact ⟨j, g, k, frame?_apply_other m hf hg hji, hx, hmem', hfuture y k hnone⟩
  intro hac
  exact hac p (TransGen.head hnew (TransGen.mono hkeep _ _ hback))

/-- As long as nothing joins a flight that already waits for it, no two flights of any builds and
sessions wait in a circle, and while any coroutine is unfinished some coroutine can move, with or
without deadlines. A step that does join backwards closes a circle. -/
theorem flights_never_wait_in_circle (b : Builder K V) {now : ℚ} {cache : AsyncMemoryCache K V}
    {revisions : List (Dict K ℕ)} {ls : List (Label K V)} {t : State K V}
    (h : RunOf b.step JoinsForward (State.initial now cache revisions) ls t) :
    Acyclic t.FlightWaits ∧ (∀ i, t.Unfinished i → ∃ j, Enabled b t j) ∧
      ∀ l u, b.step t l = some u → ¬ JoinsForward t l → ¬ Acyclic u.FlightWaits := by
  have hinv : FlightInvariant b t :=
    h.invariant (FlightInvariant b) (fun s l u hl hs hstep =>
      (step_cases hstep).flightInvariant hl hs) (flightInvariant_initial b now cache revisions)
  refine ⟨hinv.acyclic, ?_, ?_⟩
  · intro i hi
    exact exists_move hinv.shape hinv.acyclic hi
  · intro l u hstep hl
    exact closes_circle hinv hstep hl

/-- A check for `JoinsForward`: the flights joined wait for nothing yet. -/
def joinsIdle (s : State K V) : Label K V → Bool
  | .run i .go =>
    match s.frame? i with
    | some f => f.body.reserving.all fun key =>
        match s.tasks.get? key with
        | some q => s.frames.all fun g =>
            decide (g.scope.task ≠ some q) || g.body.futures.isEmpty
        | none => true
    | none => true
  | _ => true

theorem joinsForward_of_joinsIdle {s : State K V} {l : Label K V} (h : joinsIdle s l = true) :
    JoinsForward s l := by
  rintro i f p q key rfl hf _ hkey hq hback
  unfold joinsIdle at h
  dsimp only at h
  rw [hf] at h
  have hidle := List.all_eq_true.mp h key hkey
  rw [hq] at hidle
  obtain ⟨r, hr, _⟩ := TransGen.head'_iff.mp hback
  obtain ⟨j, g, k, hg, htask, hmem, _⟩ := hr
  have hg' := List.all_eq_true.mp hidle g (List.mem_of_getElem? hg)
  simp only [htask, ne_eq, not_true_eq_false, decide_false, Bool.false_or, List.isEmpty_iff] at hg'
  rw [hg'] at hmem
  cases hmem

end

/-! ## Two flights that wait for each other -/

/-- Key 0 is derived from key 2, and key 2 from key 1. -/
def chainDependencies : ℕ → List ℕ
  | 0 => [2]
  | 2 => [1]
  | _ => []

def chainBuilder : Builder ℕ ℕ :=
  .layered chainDependencies (.blocking 10 20 (by norm_num) (by norm_num)) id

theorem chainBuilder_acyclic : Acyclic chainBuilder.DependsOn := by
  refine Acyclic.of_rank (fun key => if key = 0 then 2 else if key = 2 then 1 else 0) ?_
  intro key dependency h
  rw [chainBuilder, Builder.layered_dependsOn] at h
  unfold chainDependencies at h
  split at h <;> simp_all

/-- An empty builder at time zero. -/
def coldState : State ℕ ℕ := .initial 0 (.new none AsyncMemoryCache.unlimited) []

def turns (moves : List (ℕ × ℕ)) : List (Label ℕ ℕ) :=
  moves.flatMap fun e => List.replicate e.2 (.run e.1 .go)

/-- One session asks for keys 0 and 1, another for key 2; all workers start. -/
def crossedBuilds : List (Label ℕ ℕ) :=
  [.openRuntime .new, .call 0 none [0, 1], .openRuntime .new, .call 1 none [2]] ++
    turns [(0, 7), (1, 6), (2, 1), (3, 1), (4, 2), (5, 2), (6, 1), (7, 1), (8, 6), (9, 6)]

/-- A coroutine of producer `p` waits for the future of `key` at producer `q`. -/
def State.waitsAt {K V : Type} [DecidableEq K] (s : State K V) (i p q : ℕ) (key : K) : Bool :=
  match s.frame? i with
  | some f => decide (f.scope.task = some p) && decide ((key, q) ∈ f.body.futures) &&
      (s.future q key).isNone
  | none => false

theorem flightWaits_of_waitsAt {K V : Type} [DecidableEq K] {s : State K V} {i p q : ℕ} {key : K}
    (h : s.waitsAt i p q key = true) : s.FlightWaits p q := by
  unfold State.waitsAt at h
  split at h
  · rename_i f hf
    simp only [Bool.and_eq_true, decide_eq_true_eq, Option.isNone_iff_eq_none] at h
    exact ⟨i, f, key, hf, h.1.1, h.1.2, h.2⟩
  · cases h

/-- The crossed builds up to the join that closes the circle: flight 2 waits for flight 3, and the
theorem still finds a coroutine that can move. -/
theorem flights_never_wait_in_circle_crossed : ∃ t : State ℕ ℕ,
    RunOf chainBuilder.step JoinsForward coldState crossedBuilds.dropLast t ∧
      t.FlightWaits 2 3 ∧ Acyclic t.FlightWaits ∧ ∃ j, Enabled chainBuilder t j := by
  have hrun : (execOf chainBuilder.step joinsIdle coldState crossedBuilds.dropLast).map (fun t =>
      (t.waitsAt 8 2 3 2, (t.frame? 0).map fun f => f.body.finished)) = some (true, some false) := by
    decide +kernel
  obtain ⟨t, ht, hfacts⟩ := Option.map_eq_some_iff.mp hrun
  simp only [Prod.mk.injEq] at hfacts
  obtain ⟨h23, hzero⟩ := hfacts
  have hok : RunOf chainBuilder.step JoinsForward coldState crossedBuilds.dropLast t :=
    (execOf_run ht).mono fun _ _ => joinsForward_of_joinsIdle
  obtain ⟨hac, hmove, _⟩ := flights_never_wait_in_circle chainBuilder hok
  obtain ⟨f, hf, hfin⟩ := Option.map_eq_some_iff.mp hzero
  exact ⟨t, hok, flightWaits_of_waitsAt h23, hac, hmove 0 ⟨f, hf, hfin⟩⟩

/-- Two builds over an acyclic dependency relation, without deadlines and faults: producer 2 owns
keys 0 and 1, producer 3 owns key 2, each waits for the other and nothing can move. -/
theorem acyclic_builds_deadlock : ∃ (ls : List (Label ℕ ℕ)) (t : State ℕ ℕ),
    Acyclic chainBuilder.DependsOn ∧ Run chainBuilder.step coldState ls t ∧
      t.FlightWaits 2 3 ∧ t.FlightWaits 3 2 ∧ ¬ Acyclic t.FlightWaits ∧
      t.Unfinished 0 ∧ ∀ j, ¬ Enabled chainBuilder t j := by
  have hrun : (exec chainBuilder.step coldState crossedBuilds).map (fun t =>
      (t.waitsAt 8 2 3 2, t.waitsAt 9 3 2 1, t.frames.all t.blocked,
        (t.frame? 0).map fun f => f.body.finished)) = some (true, true, true, some false) := by
    decide +kernel
  obtain ⟨t, ht, hfacts⟩ := Option.map_eq_some_iff.mp hrun
  simp only [Prod.mk.injEq] at hfacts
  obtain ⟨h23, h32, hblocked, hzero⟩ := hfacts
  have w23 := flightWaits_of_waitsAt h23
  have w32 := flightWaits_of_waitsAt h32
  refine ⟨crossedBuilds, t, chainBuilder_acyclic, exec_run ht, w23, w32, ?_, ?_, ?_⟩
  · intro hac
    exact hac 2 (.tail (.single w23) w32)
  · obtain ⟨f, hf, hfin⟩ := Option.map_eq_some_iff.mp hzero
    exact ⟨f, hf, hfin⟩
  · exact not_enabled_of_all_blocked hblocked

end Coalestra
