import Coalestra.Lib.WaitsFor
import Coalestra.Orchestration.Shape

/-! # Who waits for whom

A coroutine waits for the coroutines it awaits in its own task, and for the producers of the futures
it joined. Inside a task waits only go to younger frames; between tasks they follow the flights. So
the machine cannot get stuck while no two flights wait for each other in a circle, and a circle can
only be closed by joining a flight that already waits for the joiner. -/

namespace Coalestra
set_option autoImplicit false
set_option maxHeartbeats 250000

open Relation

section
variable {K V : Type} [DecidableEq K]

/-! ## Waits -/

/-- The coroutine has returned or raised. -/
def Body.finished : Body K V → Bool
  | .resolveMany _ _ .done | .resolveMany _ _ (.raised _) => true
  | .resolveOwned _ _ .done | .resolveOwned _ _ (.raised _) => true
  | .work _ _ (.done _) => true
  | .produce _ _ .done => true
  | .refresh _ .done => true
  | _ => false

/-- A finished coroutine never moves. -/
theorem Move.unfinished {b : Builder K V} {s : State K V} {c : Scope K} {body : Body K V}
    {e : Event K V} {m : Step K V} (h : Move b s c body e m) : body.finished = false := by
  cases h with
  | @many keys l p _ _ h =>
    cases p with
    | done =>
      cases h with
      | interrupt hp => cases hp
    | raised err =>
      cases h with
      | interrupt hp => cases hp
    | _ => rfl
  | @owned keys l p _ _ h =>
    cases p with
    | done =>
      cases h with
      | interrupt hp => cases hp
    | raised err =>
      cases h with
      | interrupt hp => cases hp
    | _ => rfl
  | work h => cases h <;> rfl
  | produce h => cases h <;> rfl
  | refresh h => cases h <;> rfl

/-- The coroutines that run on behalf of this one and are awaited directly. -/
def Body.children : Body K V → List ℕ
  | .resolveMany _ _ (.resolving child _) => [child]
  | .resolveOwned _ _ (.attempting _ _ _ _ children) => children
  | .work _ _ (.resolving child) => [child]
  | .produce _ _ (.running child) => [child]
  | _ => []

/-- The futures that `gather` awaits. -/
def Body.futures : Body K V → List (K × ℕ)
  | .resolveMany _ _ (.joining futures) => futures
  | .refresh _ (.joining futures) => futures
  | _ => []

/-- Some coroutine that producer `p` runs awaits a future that producer `q` has not settled. -/
def State.FlightWaits (s : State K V) (p q : ℕ) : Prop :=
  ∃ i f key, s.frame? i = some f ∧ f.scope.task = some p ∧ (key, q) ∈ f.body.futures ∧
    s.future q key = none

/-- Frame `i` awaits frame `j`. -/
def State.Awaits (s : State K V) (i j : ℕ) : Prop :=
  ∃ f, s.frame? i = some f ∧
    (j ∈ f.body.children ∨ ∃ key, (key, j) ∈ f.body.futures ∧ s.future j key = none)

/-- Nothing inside a flight joins a flight that already waits for it. -/
def JoinsForward (s : State K V) (l : Label K V) : Prop :=
  ∀ i f p q key, l = .run i .go → s.frame? i = some f → f.scope.task = some p →
    key ∈ f.body.reserving → s.tasks.get? key = some q → ¬ TransGen s.FlightWaits q p

/-! ## Futures -/

/-- The future of `k` that this producer settled. -/
def Body.settlement : Body K V → K → Option (Except (Error K) (ResolutionResult K V))
  | .produce _ settled _, k => settled.get? k
  | _, _ => none

theorem future_eq (s : State K V) (q : ℕ) (k : K) :
    s.future q k = (s.frame? q).bind fun f => f.body.settlement k := by
  unfold State.future
  cases s.frame? q with
  | none => rfl
  | some f =>
    obtain ⟨c, body⟩ := f
    cases body <;> rfl

/-- A move settles at most one future, and takes its key out of the registry. -/
theorem Move.settlement {b : Builder K V} {s : State K V} {c : Scope K} {body : Body K V}
    {e : Event K V} {m : Step K V} (h : Move b s c body e m) (k : K) :
    m.body.settlement k = body.settlement k ∨
      (m.body.settlement k).isSome ∧ m.shared.tasks.get? k = none := by
  cases h with
  | many h => cases h <;> exact .inl rfl
  | owned h => cases h <;> exact .inl rfl
  | work h => cases h <;> exact .inl rfl
  | refresh h => cases h <;> exact .inl rfl
  | @produce owned settled p e m h =>
    cases h with
    | @complete key rest outcome =>
      by_cases hk : k = key
      · subst hk
        exact .inr ⟨by simp [Body.settlement], by simp⟩
      · exact .inl (Dict.get?_set_ne _ _ hk)
    | _ => exact .inl rfl

/-- No started coroutine has settled anything. -/
theorem Move.spawn_settlement {b : Builder K V} {s : State K V} {c : Scope K} {body : Body K V}
    {e : Event K V} {m : Step K V} (h : Move b s c body e m) {g : Frame K V}
    (hg : m.spawn = some g) (k : K) : g.body.settlement k = none := by
  have hreserve : ∀ keys, (s.reserve c keys).2.2 = some g → g.body.settlement k = none := by
    intro keys hr
    obtain ⟨owned, _, _, rfl⟩ := reserve_spawn_eq hr
    rfl
  cases h with
  | many h =>
    cases h with
    | delegate => cases hg; rfl
    | hit => rw [schedule_spawn hg]; rfl
    | reserve => exact hreserve _ hg
    | _ => cases hg
  | owned h =>
    cases h with
    | dispatch => cases hg; rfl
    | _ => cases hg
  | work h =>
    cases h with
    | depend => cases hg; rfl
    | _ => cases hg
  | produce h =>
    cases h with
    | start => cases hg; rfl
    | _ => cases hg
  | refresh h =>
    cases h with
    | reserve => exact hreserve _ hg
    | _ => cases hg

/-- A future is settled once. -/
theorem Stepped.future_mono {b : Builder K V} {s t : State K V} {l : Label K V}
    (h : Stepped b s l t) {q : ℕ} {k : K} (hq : (s.future q k).isSome) : (t.future q k).isSome := by
  rw [future_eq] at hq ⊢
  obtain ⟨r, hr⟩ := Option.isSome_iff_exists.mp hq
  obtain ⟨g, hg, hr⟩ := Option.bind_eq_some_iff.mp hr
  cases h with
  | @run i e f m hf hm =>
    by_cases hqi : q = i
    · subst hqi
      rw [hf, Option.some.injEq] at hg
      subst hg
      rw [frame?_apply_self m hf, Option.bind_some]
      rcases hm.settlement k with hsame | ⟨hset, _⟩
      · rw [hsame, hr]
        rfl
      · exact hset
    · rw [frame?_apply_other m hf hg hqi, Option.bind_some, hr]
      rfl
  | tick =>
    show ((s.frame? q).bind _).isSome
    rw [hg, Option.bind_some, hr]; rfl
  | openRuntime =>
    show ((s.frame? q).bind _).isSome
    rw [hg, Option.bind_some, hr]; rfl
  | call => rw [frame?_append hg, Option.bind_some, hr]; rfl
  | external =>
    show ((s.frame? q).bind _).isSome
    rw [hg, Option.bind_some, hr]; rfl

/-- A registered future is not settled yet. -/
def RegisteredOpen (s : State K V) : Prop :=
  ∀ k q, s.tasks.get? k = some q → s.future q k = none

theorem future_none_of_frame {s : State K V} {q : ℕ} {k : K} {f : Frame K V}
    (hf : s.frame? q = some f) (h : s.future q k = none) : f.body.settlement k = none := by
  rw [future_eq, hf, Option.bind_some] at h
  exact h

/-- Where the registry after a move comes from. -/
theorem Move.tasks_cases {b : Builder K V} {s : State K V} {c : Scope K} {body : Body K V}
    {e : Event K V} {m : Step K V} (h : Move b s c body e m) {k : K} {q : ℕ}
    (hk : m.shared.tasks.get? k = some q) : s.tasks.get? k = some q ∨ q = s.frames.length := by
  cases h with
  | many h =>
    cases h with
    | hit => exact .inl (by simpa using hk)
    | reserve => exact (reserve_tasks hk).imp_right fun h => h.2.2
    | _ => exact .inl hk
  | owned h => cases h <;> exact .inl hk
  | work h => cases h <;> exact .inl hk
  | produce h =>
    cases h with
    | complete =>
      rw [Dict.get?_erase] at hk
      split at hk
      · cases hk
      · exact .inl hk
    | _ => exact .inl hk
  | refresh h =>
    cases h with
    | reserve => exact (reserve_tasks hk).imp_right fun h => h.2.2
    | _ => exact .inl hk

theorem Stepped.registeredOpen {b : Builder K V} {s t : State K V} {l : Label K V}
    (h : Stepped b s l t) (hs : RegisteredOpen s) : RegisteredOpen t := by
  intro k q hk
  cases h with
  | @run i e f m hf hm =>
    rw [future_eq]
    rcases hm.tasks_cases hk with hold | rfl
    · have hnone := hs k q hold
      by_cases hqi : q = i
      · subst hqi
        rw [frame?_apply_self m hf, Option.bind_some]
        rcases hm.settlement k with hsame | ⟨_, herase⟩
        · rw [hsame]
          exact future_none_of_frame hf hnone
        · change m.shared.tasks.get? k = some q at hk
          rw [herase] at hk
          cases hk
      · rw [frame?_apply m hf, if_neg hqi]
        split
        · cases hg : m.spawn with
          | none => rfl
          | some g => exact hm.spawn_settlement hg k
        · rwa [future_eq] at hnone
    · rw [frame?_apply_spawn m hf]
      cases hg : m.spawn with
      | none => rfl
      | some g => exact hm.spawn_settlement hg k
  | tick => exact hs k q hk
  | openRuntime => exact hs k q hk
  | @call runtime deadline keys hr =>
    have hnone := hs k q hk
    rw [future_eq] at hnone ⊢
    cases hg : State.frame? { s with frames := s.frames ++ [callFrame runtime deadline keys] } q with
    | none => rfl
    | some g =>
      rcases frame?_append_cases hg with hold | ⟨_, rfl⟩
      · rw [hold] at hnone
        exact hnone
      · rfl
  | external => exact hs k q hk

/-! ## Flights -/

/-- Only a reservation makes a coroutine await futures. -/
theorem Move.futures {b : Builder K V} {s : State K V} {c : Scope K} {body : Body K V}
    {e : Event K V} {m : Step K V} (h : Move b s c body e m) :
    m.body.futures = [] ∨
      e = .go ∧ m.body.futures = (s.reserve c body.reserving).1 ∧
        ∀ g, m.spawn = some g ↔ (s.reserve c body.reserving).2.2 = some g := by
  cases h with
  | many h =>
    cases h with
    | reserve => exact .inr ⟨rfl, rfl, fun g => Iff.rfl⟩
    | start => left; show Body.futures (.resolveMany _ _ (if _ then _ else _)) = []; split <;> rfl
    | delegated => left; show Body.futures (.resolveMany _ _ (if _ then _ else _)) = []; split <;> rfl
    | _ => exact .inl rfl
  | owned h => cases h <;> exact .inl rfl
  | work h => cases h <;> exact .inl rfl
  | produce h => cases h <;> exact .inl rfl
  | refresh h =>
    cases h with
    | reserve => exact .inr ⟨rfl, rfl, fun g => Iff.rfl⟩
    | _ => exact .inl rfl

theorem Move.spawn_futures {b : Builder K V} {s : State K V} {c : Scope K} {body : Body K V}
    {e : Event K V} {m : Step K V} (h : Move b s c body e m) {g : Frame K V}
    (hg : m.spawn = some g) : g.body.futures = [] := by
  have hreserve : ∀ keys, (s.reserve c keys).2.2 = some g → g.body.futures = [] := by
    intro keys hr
    obtain ⟨owned, _, _, rfl⟩ := reserve_spawn_eq hr
    rfl
  cases h with
  | many h =>
    cases h with
    | delegate => cases hg; rfl
    | hit => rw [schedule_spawn hg]; rfl
    | reserve => exact hreserve _ hg
    | _ => cases hg
  | owned h =>
    cases h with
    | dispatch => cases hg; rfl
    | _ => cases hg
  | work h =>
    cases h with
    | depend => cases hg; rfl
    | _ => cases hg
  | produce h =>
    cases h with
    | start => cases hg; rfl
    | _ => cases hg
  | refresh h =>
    cases h with
    | reserve => exact hreserve _ hg
    | _ => cases hg

/-- A coroutine about to reserve only asks for keys its own flight does not hold. -/
theorem reserving_not_owned {b : Builder K V} {s : State K V} (hs : Shape b s) {i p q : ℕ}
    {f : Frame K V} {key : K} (hf : s.frame? i = some f) (hp : f.scope.task = some p)
    (hkey : key ∈ f.body.reserving) (hq : s.tasks.get? key = some q) : q ≠ p := by
  rintro rfl
  have hshape := hs.frames i f hf
  obtain ⟨cp, owned, hcalled, ho⟩ := hshape.scope q hp
  obtain ⟨cq, owned', hcalled', hmem, _⟩ := hs.tasks key q hq
  have howned : owned = owned' := by
    obtain ⟨g, hg, _, hc⟩ := hcalled
    obtain ⟨g', hg', _, hc'⟩ := hcalled'
    rw [hg, Option.some.injEq] at hg'
    subst hg'
    rw [hc] at hc'
    exact (Call.produce.injEq _ _).mp hc'
  have hlocal : key ∈ f.scope.localOwned := ho key (howned ▸ hmem)
  have hbody := hshape.body
  obtain ⟨c, body⟩ := f
  cases body with
  | resolveMany keys l ph =>
    cases ph with
    | reserving shared => exact hbody.2 key hkey hlocal
    | _ => cases hkey
  | refresh k ph =>
    rw [hbody.1] at hp
    cases hp
  | _ => cases hkey

/-- A wait between flights is an old one, or the step joins the flight or starts it. -/
theorem Stepped.flightWaits {b : Builder K V} {s t : State K V} {l : Label K V}
    (h : Stepped b s l t) {p q : ℕ} (hw : t.FlightWaits p q) :
    s.FlightWaits p q ∨ ∃ i f, l = .run i .go ∧ s.frame? i = some f ∧ f.scope.task = some p ∧
      ((∃ key ∈ f.body.reserving, s.tasks.get? key = some q) ∨ q = s.frames.length) := by
  obtain ⟨j, g, key, hg, hp, hmem, hnone⟩ := hw
  have hold : s.future q key = none := by
    by_contra hne
    have hsome := h.future_mono (Option.isSome_iff_ne_none.mpr hne)
    rw [hnone] at hsome
    cases hsome
  cases h with
  | @run i e f m hf hm =>
    rcases frame?_apply_cases hf hg with ⟨rfl, rfl⟩ | ⟨_, hsp⟩ | ⟨_, hg⟩
    · right
      rcases hm.futures with hnil | ⟨rfl, hres, _⟩
      · rw [hnil] at hmem
        cases hmem
      · change (key, q) ∈ m.body.futures at hmem
        rw [hres] at hmem
        obtain ⟨⟨hkey, hq⟩, _⟩ := reserve_future hmem
        exact ⟨j, f, rfl, hf, hp, hq.imp (fun hq => ⟨key, hkey, hq⟩) fun hq => hq.2⟩
    · rw [hm.spawn_futures hsp] at hmem
      cases hmem
    · exact .inl ⟨j, g, key, hg, hp, hmem, hold⟩
  | tick => exact .inl ⟨j, g, key, hg, hp, hmem, hold⟩
  | openRuntime => exact .inl ⟨j, g, key, hg, hp, hmem, hold⟩
  | call =>
    rcases frame?_append_cases hg with hg | ⟨_, rfl⟩
    · exact .inl ⟨j, g, key, hg, hp, hmem, hold⟩
    · cases hmem
  | external => exact .inl ⟨j, g, key, hg, hp, hmem, hold⟩

theorem FlightWaits.lt {b : Builder K V} {s : State K V} (hs : Shape b s) {p q : ℕ}
    (h : s.FlightWaits p q) : p < s.frames.length ∧ q < s.frames.length := by
  obtain ⟨i, f, key, hf, hp, hmem, _⟩ := h
  have hshape := hs.frames i f hf
  obtain ⟨cp, owned, hcalled, _⟩ := hshape.scope p hp
  refine ⟨hcalled.lt, ?_⟩
  have hfutures : FuturesShape s.Called f.body.futures := by
    have hbody := hshape.body
    obtain ⟨c, body⟩ := f
    cases body with
    | resolveMany keys l ph =>
      cases ph with
      | joining futures => exact hbody.2.1
      | _ => cases hmem
    | refresh k ph =>
      cases ph with
      | joining futures => exact hbody.2
      | _ => cases hmem
    | _ => cases hmem
  obtain ⟨⟨cq, owned', hcalled', _⟩, _⟩ := hfutures _ hmem
  exact hcalled'.lt

/-- Joining only flights that do not wait for the joiner keeps the flights free of circles. -/
theorem Stepped.acyclic {b : Builder K V} {s t : State K V} {l : Label K V} (h : Stepped b s l t)
    (hs : Shape b s) (hl : JoinsForward s l) (hac : Acyclic s.FlightWaits) :
    Acyclic t.FlightWaits := by
  by_cases hnew : ∃ i f p, l = .run i .go ∧ s.frame? i = some f ∧ f.scope.task = some p
  · obtain ⟨i, f, p, rfl, hf, hp⟩ := hnew
    refine hac.extend (p := p)
      (N := fun q => (∃ key ∈ f.body.reserving, s.tasks.get? key = some q) ∨ q = s.frames.length)
      ?_ ?_
    · intro p' q hw
      rcases h.flightWaits hw with hold | ⟨i', f', hl', hf', hp', hq⟩
      · exact .inl hold
      · cases hl'
        rw [hf, Option.some.injEq] at hf'
        subst hf'
        rw [hp, Option.some.injEq] at hp'
        exact .inr ⟨hp'.symm, hq⟩
    · rintro q (⟨key, hkey, hq⟩ | rfl) hback
      · rcases (reflTransGen_iff_eq_or_transGen.mp hback) with heq | hback
        · exact reserving_not_owned hs hf hp hkey hq heq.symm
        · exact hl i f p q key rfl hf hp hkey hq hback
      · -- A flight that starts now waits for nothing yet.
        rcases ReflTransGen.cases_head hback with heq | ⟨r, hr, _⟩
        · obtain ⟨cp, owned, hcalled, _⟩ := (hs.frames i f hf).scope p hp
          exact absurd heq (Nat.ne_of_gt hcalled.lt)
        · exact absurd (FlightWaits.lt hs hr).1 (lt_irrefl _)
  · refine hac.mono ?_
    intro p q hw
    rcases h.flightWaits hw with hold | ⟨i, f, hl', hf, hp, _⟩
    · exact hold
    · exact absurd ⟨i, f, p, hl', hf, hp⟩ hnew

/-! ## Progress -/

def State.task (s : State K V) (i : ℕ) : Option ℕ := (s.frame? i).bind fun f => f.scope.task

theorem task_eq {s : State K V} {i : ℕ} {f : Frame K V} (h : s.frame? i = some f) :
    s.task i = f.scope.task := by rw [State.task, h, Option.bind_some]

theorem task_called {s : State K V} {i : ℕ} {c : Scope K} {call : Call K}
    (h : s.Called i c call) : s.task i = c.task := by
  obtain ⟨f, hf, rfl, _⟩ := h
  exact task_eq hf

/-- Frames that other frames await directly run in the same task and are younger. -/
theorem children_shape {b : Builder K V} {s : State K V} (hs : Shape b s) {i j : ℕ}
    {f : Frame K V} (hf : s.frame? i = some f) (hj : j ∈ f.body.children) :
    i < j ∧ j < s.frames.length ∧ s.task j = f.scope.task := by
  have hbody := (hs.frames i f hf).body
  obtain ⟨c, body⟩ := f
  cases body with
  | resolveMany keys l ph =>
    cases ph with
    | resolving child shared =>
      rw [Body.children, List.mem_singleton] at hj
      subst hj
      obtain ⟨_, hlt, ⟨owned, hcalled⟩, _⟩ := hbody
      exact ⟨hlt, hcalled.lt, (task_called hcalled).trans rfl⟩
    | _ => cases hj
  | resolveOwned keys l ph =>
    cases ph with
    | attempting source sources chosen queue children =>
      obtain ⟨_, _, _, _, hchildren⟩ := hbody
      obtain ⟨hlt, ks, hcalled⟩ := hchildren j hj
      exact ⟨hlt, hcalled.lt, task_called hcalled⟩
    | _ => cases hj
  | work source keys ph =>
    cases ph with
    | resolving child =>
      rw [Body.children, List.mem_singleton] at hj
      subst hj
      obtain ⟨_, _, _, _, hlt, key, declared, _, _, hcalled⟩ := hbody
      exact ⟨hlt, hcalled.lt, (task_called hcalled).trans rfl⟩
    | _ => cases hj
  | produce owned settled ph =>
    cases ph with
    | running child =>
      rw [Body.children, List.mem_singleton] at hj
      subst hj
      exact ⟨hbody.2.1, hbody.2.2.lt, task_called hbody.2.2⟩
    | _ => cases hj
  | refresh key ph => cases hj

theorem futures_shape {b : Builder K V} {s : State K V} (hs : Shape b s) {i : ℕ} {f : Frame K V}
    (hf : s.frame? i = some f) : FuturesShape s.Called f.body.futures := by
  have hbody := (hs.frames i f hf).body
  have hnil : FuturesShape s.Called ([] : List (K × ℕ)) := by
    intro e he
    cases he
  obtain ⟨c, body⟩ := f
  cases body with
  | resolveMany keys l ph =>
    cases ph with
    | joining futures => exact hbody.2.1
    | _ => exact hnil
  | refresh k ph =>
    cases ph with
    | joining futures => exact hbody.2
    | _ => exact hnil
  | _ => exact hnil

/-- Without a circle of flights every chain of awaits ends. -/
theorem awaits_wellFounded {b : Builder K V} {s : State K V} (hs : Shape b s)
    (hac : Acyclic s.FlightWaits) : WellFounded fun j i => s.Awaits i j := by
  refine wellFounded_groups s.task s.frames.length
    (hac.wellFounded fun p q h => FlightWaits.lt hs h) ?_
  rintro i j ⟨f, hf, hj | ⟨key, hmem, hnone⟩⟩
  · obtain ⟨hlt, hlen, htask⟩ := children_shape hs hf hj
    exact ⟨hlen, .inl ⟨htask.trans (task_eq hf).symm, hlt⟩⟩
  · obtain ⟨⟨cp, owned, hcalled, _, htask⟩, _⟩ := futures_shape hs hf _ hmem
    refine ⟨hcalled.lt, .inr ⟨j, (task_called hcalled).trans htask, ?_⟩⟩
    intro p hp
    exact ⟨i, f, key, hf, (task_eq hf).symm.trans hp, hmem, hnone⟩

def State.Unfinished (s : State K V) (i : ℕ) : Prop :=
  ∃ f, s.frame? i = some f ∧ f.body.finished = false

/-- Some event moves frame `i`. -/
def Enabled (b : Builder K V) (s : State K V) (i : ℕ) : Prop :=
  ∃ e t, b.step s (.run i e) = some t

theorem enabled_of_move {b : Builder K V} {s : State K V} {i : ℕ} {f : Frame K V} {e : Event K V}
    (hf : s.frame? i = some f) (h : (b.move s f e).isSome) : Enabled b s i := by
  obtain ⟨m, hm⟩ := Option.isSome_iff_exists.mp h
  exact ⟨e, _, step_run.mpr ⟨f, m, hf, hm, rfl⟩⟩

section

attribute [local simp] Body.finished

/-- A directly awaited coroutine without an outcome is unfinished. -/
theorem unfinished_of_owned {s : State K V} {j : ℕ} {c : Scope K} {keys : List K}
    (hc : s.Called j c (.owned keys)) (h : s.ownedOutcome j = none) : s.Unfinished j := by
  obtain ⟨⟨c', body⟩, hf, _, hcall⟩ := hc
  refine ⟨_, hf, ?_⟩
  unfold State.ownedOutcome at h
  rw [hf] at h
  cases body with
  | resolveOwned ks l ph => cases ph <;> simp_all [Body.finished]
  | _ => cases hcall

theorem unfinished_of_many {s : State K V} {j : ℕ} {c : Scope K} {keys : List K}
    (hc : s.Called j c (.many keys)) (h : s.manyOutcome j = none) : s.Unfinished j := by
  obtain ⟨⟨c', body⟩, hf, _, hcall⟩ := hc
  refine ⟨_, hf, ?_⟩
  unfold State.manyOutcome at h
  rw [hf] at h
  cases body with
  | resolveMany ks l ph => cases ph <;> simp_all [Body.finished]
  | _ => cases hcall

theorem unfinished_of_work {s : State K V} {j : ℕ} {c : Scope K} {source : Source K}
    {keys : List K} (hc : s.Called j c (.work source keys)) (h : s.workOutcome j = none) :
    s.Unfinished j := by
  obtain ⟨⟨c', body⟩, hf, _, hcall⟩ := hc
  refine ⟨_, hf, ?_⟩
  unfold State.workOutcome at h
  rw [hf] at h
  cases body with
  | work source ks ph => cases ph <;> simp_all [Body.finished]
  | _ => cases hcall

end

/-- A producer with an unsettled future is unfinished. -/
theorem unfinished_of_future {b : Builder K V} {s : State K V} (hs : Shape b s) {q : ℕ} {key : K}
    (hq : FutureShape s.Called key q) (h : s.future q key = none) : s.Unfinished q := by
  obtain ⟨cp, owned, ⟨⟨c', body⟩, hf, _, hcall⟩, hmem, _⟩ := hq
  refine ⟨_, hf, ?_⟩
  have hbody := (hs.frames q _ hf).body
  cases body with
  | produce owned' settled ph =>
    cases ph with
    | done =>
      cases hcall
      have hkeys := hbody.2 key hmem
      rw [Dict.mem_keys] at hkeys
      obtain ⟨r, hr⟩ := hkeys
      have hnone := future_none_of_frame hf h
      rw [Body.settlement, hr] at hnone
      cases hnone
    | _ => rfl
  | _ => cases hcall

/-- Awaiting futures ends when all of them hold results or one holds an exception. -/
theorem joined_or_failed {s : State K V} {futures : List (K × ℕ)}
    (hfun : ∀ e ∈ futures, Dict.find futures e.1 = some e.2)
    (hset : ∀ e ∈ futures, (s.future e.2 e.1).isSome) :
    (s.joined futures).isSome ∨ ∃ key, (s.joinFailure futures key).isSome := by
  by_cases hall : ∀ e ∈ futures, ((s.future e.2 e.1).bind Except.toOption).isSome
  · left
    rw [State.joined, if_pos (List.all_eq_true.mpr hall)]
    rfl
  · right
    push Not at hall
    obtain ⟨e, he, herr⟩ := hall
    obtain ⟨r, hr⟩ := Option.isSome_iff_exists.mp (hset e he)
    refine ⟨e.1, ?_⟩
    unfold State.joinFailure
    rw [hfun e he, Option.bind_some, hr]
    cases r with
    | error err => rfl
    | ok v => simp [hr, Except.toOption] at herr

/-- Whoever awaits futures can move, or one of the producers is unfinished. -/
theorem progress_joining {b : Builder K V} {s : State K V} (hs : Shape b s) {i : ℕ} {f : Frame K V}
    (hf : s.frame? i = some f)
    (hgo : (s.joined f.body.futures).isSome → (b.move s f .go).isSome)
    (hfail : ∀ key, (s.joinFailure f.body.futures key).isSome → (b.move s f (.failed key)).isSome) :
    Enabled b s i ∨ ∃ j, s.Awaits i j ∧ s.Unfinished j := by
  have hshape := futures_shape hs hf
  by_cases hset : ∀ e ∈ f.body.futures, (s.future e.2 e.1).isSome
  · left
    rcases joined_or_failed (fun e he => (hshape e he).2) hset with h | ⟨key, h⟩
    · exact enabled_of_move hf (hgo h)
    · exact enabled_of_move hf (hfail key h)
  · right
    push Not at hset
    obtain ⟨e, he, hnone⟩ := hset
    have hnone' : s.future e.2 e.1 = none := by simpa using hnone
    exact ⟨e.2, ⟨f, hf, .inr ⟨e.1, he, hnone'⟩⟩, unfinished_of_future hs (hshape e he).1 hnone'⟩

theorem progress_many {b : Builder K V} {s : State K V} (hs : Shape b s) {i : ℕ} {c : Scope K}
    {keys : List K} {l : ManyLocals K V} {p : ManyPhase K V}
    (hf : s.frame? i = some ⟨c, .resolveMany keys l p⟩)
    (hu : (Body.resolveMany keys l p).finished = false) :
    Enabled b s i ∨ ∃ j, s.Awaits i j ∧ s.Unfinished j := by
  have hbody := (hs.frames i _ hf).body
  cases p with
  | start => exact .inl (enabled_of_move (e := .go) hf rfl)
  | reading cacheKeys now => exact .inl (enabled_of_move (e := .go) hf rfl)
  | isolating lookups => exact .inl (enabled_of_move (e := .go) hf rfl)
  | serving lookups =>
    refine .inl (enabled_of_move (e := .go) hf ?_)
    cases lookups with
    | nil =>
      simp only [Builder.move, Builder.moveMany]
      split
      · rfl
      · split <;> rfl
    | cons entry rest =>
      obtain ⟨key, lookup⟩ := entry
      simp only [Builder.move, Builder.moveMany]
      split
      · rfl
      · split
        · rfl
        · split
          · rfl
          · split <;> rfl
  | copying key copy rest => exact .inl (enabled_of_move (e := .go) hf rfl)
  | resolving child shared =>
    obtain ⟨_, _, ⟨owned, hcalled⟩, _⟩ := hbody
    cases ho : s.ownedOutcome child with
    | none =>
      exact .inr ⟨child, ⟨_, hf, .inl (by simp [Body.children])⟩, unfinished_of_owned hcalled ho⟩
    | some outcome =>
      refine .inl (enabled_of_move (e := .go) hf ?_)
      cases outcome <;> simp [Builder.move, Builder.moveMany, ho]
  | reserving shared => exact .inl (enabled_of_move (e := .go) hf rfl)
  | joining futures =>
    refine progress_joining hs hf ?_ ?_
    · intro h
      simpa [Builder.move, Builder.moveMany, Body.futures] using h
    · intro key h
      simpa [Builder.move, Builder.moveMany, Body.futures] using h
  | collecting rest =>
    refine .inl (enabled_of_move (e := .go) hf ?_)
    cases rest with
    | nil => rfl
    | cons key rest =>
      simp only [Builder.move, Builder.moveMany]
      split
      · rfl
      · rfl
      · split
        · rfl
        · split <;> rfl
  | fallback key copy rest => exact .inl (enabled_of_move (e := .go) hf rfl)
  | done => cases hu
  | raised e => cases hu

theorem progress_owned {b : Builder K V} {s : State K V} (hs : Shape b s) {i : ℕ} {c : Scope K}
    {keys : List K} {l : OwnedLocals K V} {p : OwnedPhase K V}
    (hf : s.frame? i = some ⟨c, .resolveOwned keys l p⟩)
    (hu : (Body.resolveOwned keys l p).finished = false) :
    Enabled b s i ∨ ∃ j, s.Awaits i j ∧ s.Unfinished j := by
  have hbody := (hs.frames i _ hf).body
  cases p with
  | visiting sources =>
    refine .inl (enabled_of_move (e := .go) hf ?_)
    cases sources with
    | nil => rfl
    | cons source sources =>
      simp only [Builder.move, Builder.moveOwned]
      split
      · rfl
      · split <;> rfl
  | attempting source sources chosen queue children =>
    obtain ⟨_, _, _, _, hchildren⟩ := hbody
    -- Either a worker slot is free, or some unit of work is still running.
    by_cases hrun : ∃ child ∈ children, s.workOutcome child = none
    · obtain ⟨child, hmem, hnone⟩ := hrun
      obtain ⟨_, ks, hcalled⟩ := hchildren child hmem
      exact .inr ⟨child, ⟨_, hf, .inl hmem⟩, unfinished_of_work hcalled hnone⟩
    · push Not at hrun
      have hnone : (children.filter fun j => (s.workOutcome j).isNone) = [] := by
        rw [List.filter_eq_nil_iff]
        intro child hmem
        simpa using hrun child hmem
      refine .inl (enabled_of_move (e := .go) hf ?_)
      cases queue with
      | nil =>
        have hall : (children.all fun j => (s.workOutcome j).isSome) = true :=
          List.all_eq_true.mpr fun child hmem => Option.isSome_iff_ne_none.mpr (hrun child hmem)
        simp [Builder.move, Builder.moveOwned, hall]
      | cons item queue =>
        have hpos := b.maxTasks_pos source
        simp only [Builder.move, Builder.moveOwned, hnone, List.length_nil]
        rw [if_pos (by omega)]
        rfl
  | harvesting source sources attempts rest fresh =>
    refine .inl (enabled_of_move (e := .go) hf ?_)
    cases rest with
    | nil =>
      simp only [Builder.move, Builder.moveOwned]
      split <;> rfl
    | cons key rest =>
      simp only [Builder.move, Builder.moveOwned]
      split
      · rfl
      · split <;> rfl
  | writing sources fresh => exact .inl (enabled_of_move (e := .go) hf rfl)
  | written sources winners => exact .inl (enabled_of_move (e := .go) hf rfl)
  | superseding sources winners =>
    refine .inl (enabled_of_move (e := .go) hf ?_)
    cases winners with
    | nil => rfl
    | cons entry rest => rfl
  | copyingWinner sources key copy rest => exact .inl (enabled_of_move (e := .go) hf rfl)
  | finishing rest stales =>
    refine .inl (enabled_of_move (e := .go) hf ?_)
    cases rest with
    | nil =>
      simp only [Builder.move, Builder.moveOwned]
      split <;> rfl
    | cons key rest =>
      simp only [Builder.move, Builder.moveOwned]
      split
      · rfl
      · split <;> rfl
  | staleWriting stales => exact .inl (enabled_of_move (e := .go) hf rfl)
  | staleWritten => exact .inl (enabled_of_move (e := .go) hf rfl)
  | done => cases hu
  | raised e => cases hu

theorem progress_work {b : Builder K V} {s : State K V} (hs : Shape b s) {i : ℕ} {c : Scope K}
    {source : Source K} {keys : List K} {p : WorkPhase K V}
    (hf : s.frame? i = some ⟨c, .work source keys p⟩)
    (hu : (Body.work source keys p : Body K V).finished = false) :
    Enabled b s i ∨ ∃ j, s.Awaits i j ∧ s.Unfinished j := by
  obtain ⟨_, _, hderived, hbody⟩ := (hs.frames i _ hf).body
  cases p with
  | start =>
    refine .inl (enabled_of_move (e := .go) hf ?_)
    obtain ⟨key, rfl⟩ := hderived hbody
    simp only [Builder.move, Builder.moveWork]
    split
    · rfl
    · split <;> rfl
  | resolving child =>
    obtain ⟨_, _, key, declared, _, _, hcalled⟩ := hbody
    cases ho : s.manyOutcome child with
    | none =>
      exact .inr ⟨child, ⟨_, hf, .inl (by simp [Body.children])⟩, unfinished_of_many hcalled ho⟩
    | some outcome =>
      refine .inl (enabled_of_move (e := .go) hf ?_)
      cases outcome with
      | error err => simp [Builder.move, Builder.moveWork, ho]
      | ok result =>
        simp only [Builder.move, Builder.moveWork, ho]
        split <;> rfl
  | isolating values => exact .inl (enabled_of_move (e := .go) hf rfl)
  | calling versions =>
    exact .inl (enabled_of_move (e := .raise (.other "TimeoutError" (by decide))) hf rfl)
  | done attempts => cases hu

theorem progress {b : Builder K V} {s : State K V} (hs : Shape b s) (i : ℕ)
    (hu : s.Unfinished i) : Enabled b s i ∨ ∃ j, s.Awaits i j ∧ s.Unfinished j := by
  obtain ⟨⟨c, body⟩, hf, hu⟩ := hu
  cases body with
  | resolveMany keys l p => exact progress_many hs hf hu
  | resolveOwned keys l p => exact progress_owned hs hf hu
  | work source keys p => exact progress_work hs hf hu
  | produce owned settled p =>
    have hbody := (hs.frames i _ hf).body
    cases p with
    | start => exact .inl (enabled_of_move (e := .go) hf rfl)
    | running child =>
      cases ho : s.ownedOutcome child with
      | none =>
        exact .inr ⟨child, ⟨_, hf, .inl (by simp [Body.children])⟩,
          unfinished_of_owned hbody.2.2 ho⟩
      | some outcome =>
        refine .inl (enabled_of_move (e := .go) hf ?_)
        simp [Builder.move, Builder.moveProduce, ho]
    | completing rest outcome =>
      refine .inl (enabled_of_move (e := .go) hf ?_)
      cases rest <;> rfl
    | done => cases hu
  | refresh key p =>
    cases p with
    | reserving => exact .inl (enabled_of_move (e := .go) hf rfl)
    | joining futures =>
      refine progress_joining hs hf ?_ ?_
      · intro h
        simpa [Builder.move, Builder.moveRefresh, Body.futures] using h
      · intro key h
        simpa [Builder.move, Builder.moveRefresh, Body.futures] using h
    | done => cases hu

/-- While no flights wait in a circle, an unfinished coroutine can move or awaits, directly or
through others, one that can. -/
theorem exists_awaited_move {b : Builder K V} {s : State K V} (hs : Shape b s)
    (hac : Acyclic s.FlightWaits) {i : ℕ} (hu : s.Unfinished i) :
    ∃ j, Relation.ReflTransGen s.Awaits i j ∧ Enabled b s j :=
  exists_enabled (awaits_wellFounded hs hac) (progress hs) i hu

/-- While something is unfinished and no flights wait in a circle, something can move. -/
theorem exists_move {b : Builder K V} {s : State K V} (hs : Shape b s)
    (hac : Acyclic s.FlightWaits) {i : ℕ} (hu : s.Unfinished i) : ∃ j, Enabled b s j := by
  obtain ⟨j, _, hj⟩ := exists_awaited_move hs hac hu
  exact ⟨j, hj⟩

/-! ## Blocked frames -/

/-- No event moves the frame: it has ended, or all it awaits is unfinished. -/
def State.blocked (s : State K V) (f : Frame K V) : Bool :=
  match f.body with
  | .resolveMany _ _ (.resolving child _) => (s.ownedOutcome child).isNone
  | .resolveMany _ _ (.joining futures) =>
    !futures.isEmpty && futures.all fun e => (s.future e.2 e.1).isNone
  | .resolveOwned _ _ (.attempting _ _ _ [] children) =>
    children.any fun child => (s.workOutcome child).isNone
  | .work _ _ (.resolving child) => (s.manyOutcome child).isNone
  | .produce _ _ (.running child) => (s.ownedOutcome child).isNone
  | body => body.finished

theorem not_enabled_of_blocked {b : Builder K V} {s : State K V} {i : ℕ} {f : Frame K V}
    (hf : s.frame? i = some f) (h : s.blocked f = true) : ¬ Enabled b s i := by
  rintro ⟨e, t, ht⟩
  obtain ⟨f', m, hf', hm, rfl⟩ := step_run.mp ht
  rw [hf, Option.some.injEq] at hf'
  subst hf'
  have hmove := move_cases hm
  obtain ⟨c, body⟩ := f
  cases hmove with
  | @many keys l p e m hmove =>
    cases hmove with
    | delegated ho => simp [State.blocked, ho] at h
    | delegateRaised ho => simp [State.blocked, ho] at h
    | @joined futures joined hj =>
      simp only [State.blocked, Bool.and_eq_true, Bool.not_eq_true', List.all_eq_true] at h
      obtain ⟨e, he⟩ := List.exists_mem_of_ne_nil futures (by simpa using h.1)
      have hnone := h.2 e he
      unfold State.joined at hj
      split at hj
      · rename_i hall
        have hsome := List.all_eq_true.mp hall e he
        simp only [Option.isNone_iff_eq_none] at hnone
        rw [hnone] at hsome
        cases hsome
      · cases hj
    | @joinRaised futures key err hj =>
      simp only [State.blocked, Bool.and_eq_true, List.all_eq_true] at h
      unfold State.joinFailure at hj
      cases hk : Dict.find futures key with
      | none => simp [hk] at hj
      | some p =>
        have hnone := h.2 (key, p) (Dict.mem_of_find hk)
        simp only [Option.isNone_iff_eq_none] at hnone
        simp [hk, hnone] at hj
    | interrupt hp _ => cases p <;> simp_all [State.blocked, ManyPhase.interruptible, Body.finished]
    | _ => cases h
  | @owned keys l p e m hmove =>
    cases hmove with
    | gather hc =>
      obtain ⟨child, hmem, hnone⟩ := List.any_eq_true.mp h
      have hsome := hc child hmem
      simp only [Option.isNone_iff_eq_none] at hnone
      rw [hnone] at hsome
      cases hsome
    | interrupt hp _ =>
      cases p <;> simp_all [State.blocked, OwnedPhase.interruptible, Body.finished]
    | _ => cases h
  | work hmove =>
    cases hmove with
    | resolved ho => simp [State.blocked, ho] at h
    | unresolved ho => simp [State.blocked, ho] at h
    | childRaised ho => simp [State.blocked, ho] at h
    | _ => cases h
  | produce hmove =>
    cases hmove with
    | produced ho => simp [State.blocked, ho] at h
    | _ => cases h
  | refresh hmove => cases hmove <;> cases h

/-- Every frame has ended or waits for unfinished ones. -/
theorem not_enabled_of_all_blocked {b : Builder K V} {s : State K V}
    (h : s.frames.all s.blocked = true) (i : ℕ) : ¬ Enabled b s i := by
  rintro ⟨e, t, ht⟩
  obtain ⟨f, m, hf, _⟩ := step_run.mp ht
  exact not_enabled_of_blocked hf (List.all_eq_true.mp h f (List.mem_of_getElem? hf)) ⟨e, t, ht⟩

end
end Coalestra
