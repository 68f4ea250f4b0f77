import Coalestra.Orchestration.Costs

/-! # Cycle detection

The recursion through `_resolve_many`, `derive_one` and `SingleFlight` goes along paths of declared
dependencies without a repetition, so in each runtime it ends after a bounded number of moves. While
no flight joins a flight that waits for it, nothing is stuck either, every reported cycle is real and
a key that cannot be had without going in circles ends with an error. -/

namespace Coalestra
set_option autoImplicit false
set_option maxHeartbeats 250000

section
variable {K V : Type} [DecidableEq K]

/-! ## Room on a path -/

omit [DecidableEq K] in
theorem length_le_card {U : Finset K} {keys : List K} (hnodup : keys.Nodup)
    (h : ∀ k ∈ keys, k ∈ U) : keys.length ≤ U.card := by
  classical
  have hsub : keys.toFinset ⊆ U := fun k hk => h k (List.mem_toFinset.mp hk)
  have hcard := Finset.card_le_card hsub
  rwa [List.toFinset_card_of_nodup hnodup] at hcard

omit [DecidableEq K] in
/-- A path inside `U` leaves room for its last key. -/
theorem Builder.Path.length_lt {b : Builder K V} {U : Finset K} {above : List K} {k : K}
    (h : b.Path (· ∈ U) above k) : above.length < U.card := by
  have hlen := length_le_card h.nodup h.within
  rw [List.length_append, List.length_singleton] at hlen
  omega

variable {b : Builder K V} {U : Finset K} {had : K → Prop} {s t : State K V} {l : Label K V}

theorem roomy_of_keeps (hclosed : ∀ k ∈ U, ∀ d, b.DependsOn k d → d ∈ U) (hshape : Shape b s)
    (hk : s.Keeps (derivations b (· ∈ U) had)) {i : ℕ} {f : Frame K V} (hf : s.frame? i = some f)
    {source : Source K} {keys : List K} (hbody : f.body = .work source keys .start) :
    Roomy U.card f.scope source keys := by
  intro key rest declared hkeys hdep _
  have hframe := (hshape.frames i f hf).body
  have hholds := hk i f hf trivial
  rw [hbody] at hframe hholds
  obtain ⟨hsource, hsupports, _, hkind⟩ := hframe
  have hkey : key ∈ keys := by
    rw [hkeys]
    exact List.mem_cons_self
  have hpath : b.Path (· ∈ U) f.scope.ancestry key := hholds.1 key hkey
  refine ⟨hpath.length_lt, length_le_card (Dict.nodup_fromKeys declared) ?_⟩
  intro d hd
  exact hclosed key hpath.mem d
    ⟨source, hsource, hkind, hsupports key hkey, declared, hdep, Dict.mem_fromKeys.mp hd⟩

/-! ## The moves of one runtime -/

/-- What a frame can still cost runtime `r`. -/
def Frame.costIn (sources width r : ℕ) (f : Frame K V) : ℕ :=
  if f.scope.runtime = r then f.cost sources width else 0

/-- What the coroutines of runtime `r` can still cost. -/
def State.costIn (s : State K V) (sources width r : ℕ) : ℕ :=
  (s.frames.map (Frame.costIn sources width r)).sum

/-- What one resolution of at most `width` keys costs, or one refresh. -/
def resolutionCost (sources width : ℕ) : ℕ :=
  manyCost sources (workCost sources width width) (width + 1)

/-- A coroutine of runtime `r` moves. -/
def movesIn (r : ℕ) (s : State K V) : Label K V → Bool
  | .run i _ => (s.frame? i).any fun f => decide (f.scope.runtime = r)
  | _ => false

/-- A session calls `_resolve_many` in runtime `r`. -/
def callsIn (r : ℕ) : Label K V → Bool
  | .call runtime _ _ => decide (runtime = r)
  | _ => false

/-- What runtime `r` costs from here: its coroutines, and a refresh if it is not open yet. -/
def State.potential (s : State K V) (sources width r : ℕ) : ℕ :=
  s.costIn sources width r + if r < s.runtimes.length then 0 else resolutionCost sources width

theorem costIn_apply (sources width r : ℕ) {i : ℕ} {f : Frame K V} (hf : s.frame? i = some f)
    (m : Step K V) : (s.apply i f m).costIn sources width r + f.costIn sources width r =
      s.costIn sources width r + (Frame.mk f.scope m.body).costIn sources width r +
        m.spawnCost sources width r := by
  have hset := sum_map_set (Frame.costIn sources width r) hf (b := ⟨f.scope, m.body⟩)
  have hspawn : ((m.spawn.toList).map (Frame.costIn sources width r)).sum =
      m.spawnCost sources width r := by
    unfold Step.spawnCost
    cases m.spawn with
    | none => rfl
    | some g => exact List.sum_singleton
  unfold State.costIn State.apply
  rw [List.map_append, List.sum_append, hspawn]
  omega

omit [DecidableEq K] in
/-- A started refresh costs no more than a resolution. -/
theorem refresh_cost_le (sources width r : ℕ) (key : K) :
    (Frame.mk ⟨none, r, [], [], none⟩ (.refresh key .reserving) : Frame K V).cost sources width ≤
      resolutionCost sources width := by
  have := produceCost_mono sources (workCost sources width width)
    (show 1 ≤ width + 1 by omega)
  simp only [Frame.cost, Body.cost, RefreshPhase.cost, List.length_nil, Nat.sub_zero,
    resolutionCost, manyCost, pendingCost]
  omega

/-- Only a refresh starts in another runtime, and it opens that runtime. -/
theorem Move.spawnCost_other {c : Scope K} {body : Body K V} {e : Event K V} {m : Step K V}
    (hm : Move b s c body e m) (sources width : ℕ) {r : ℕ} (hr : c.runtime ≠ r) :
    m.spawnCost sources width r +
        (if r < m.shared.runtimes.length then 0 else resolutionCost sources width) ≤
      if r < s.runtimes.length then 0 else resolutionCost sources width := by
  have hlen := hm.runtimes_length
  unfold Step.spawnCost
  cases hg : m.spawn with
  | none =>
    rw [Option.elim_none]
    split <;> split <;> omega
  | some g =>
    rw [Option.elim_some]
    rcases hm.spawn_runtime hg with hown | ⟨hnew, hlt, key, rfl⟩
    · rw [if_neg (hown ▸ hr)]
      split <;> split <;> omega
    · have hrefresh := refresh_cost_le (V := V) sources width s.runtimes.length key
      dsimp only
      split <;> split <;> split <;> omega

/-- A session call costs no more than a resolution. -/
theorem callFrame_cost_le (sources r : ℕ) (deadline : Option ℚ) {keys : List K}
    (h : ∀ k ∈ keys, k ∈ U) : (callFrame r deadline keys : Frame K V).cost sources U.card ≤
      resolutionCost sources U.card := by
  have hlen : (Dict.fromKeys keys).length ≤ U.card :=
    length_le_card (Dict.nodup_fromKeys keys) fun k hk => h k (Dict.mem_fromKeys.mp hk)
  exact manyCost_mono _ _ (Nat.le_succ_of_le hlen)

/-- A move in runtime `r` consumes its potential, and only a session call in `r` adds to it. -/
theorem Stepped.potential (h : Stepped b s l t) (hopen : RuntimesOpen s)
    (hrequests : RequestsWithin (· ∈ U) l)
    (hroom : ∀ i f source keys, s.frame? i = some f → f.body = .work source keys .start →
      Roomy U.card f.scope source keys) (r : ℕ) :
    t.potential b.sources.length U.card r + (if movesIn r s l then 1 else 0) ≤
      s.potential b.sources.length U.card r +
        (if callsIn r l then resolutionCost b.sources.length U.card else 0) := by
  have hlen := h.runtimes_length
  cases h with
  | @run i e f m hf hm =>
    have happly := costIn_apply b.sources.length U.card r hf m
    have hcost := hm.cost U.card (hopen i f hf) fun source keys hb =>
      hroom i f source keys hf hb
    have hmoves : movesIn r s (.run i e) = decide (f.scope.runtime = r) := by
      rw [movesIn, hf, Option.any_some]
    rw [hmoves]
    by_cases hr : f.scope.runtime = r
    · -- The runtime of the move is open, before and after.
      subst hr
      have hlt := hopen i f hf
      have hself : f.costIn b.sources.length U.card f.scope.runtime =
          f.cost b.sources.length U.card := if_pos rfl
      have hnext : (Frame.mk f.scope m.body).costIn b.sources.length U.card f.scope.runtime =
          (Frame.mk f.scope m.body).cost b.sources.length U.card := if_pos rfl
      rw [hself, hnext] at happly
      unfold State.potential
      rw [if_pos hlt, if_pos (lt_of_lt_of_le hlt hlen)]
      simp only [decide_true, if_true]
      change _ ≤ f.cost b.sources.length U.card at hcost
      omega
    · have hself : f.costIn b.sources.length U.card r = 0 := if_neg hr
      have hnext : (Frame.mk f.scope m.body).costIn b.sources.length U.card r = 0 := if_neg hr
      have hspawn := hm.spawnCost_other b.sources.length U.card hr
      rw [hself, hnext] at happly
      unfold State.potential
      change (s.apply i f m).costIn _ _ r + (if r < m.shared.runtimes.length then 0 else _) + _ ≤ _
      simp only [hr, decide_false, Bool.false_eq_true, if_false, callsIn]
      omega
  | tick => exact le_rfl
  | @openRuntime r' _ =>
    have hlen' : s.runtimes.length ≤ (s.runtimes ++ [r']).length := hlen
    show s.costIn _ _ r + (if r < (s.runtimes ++ [r']).length then 0 else _) + 0 ≤
      s.costIn _ _ r + (if r < s.runtimes.length then 0 else _) + 0
    split <;> split <;> omega
  | @call runtime deadline keys hr =>
    have hcall := callFrame_cost_le (V := V) b.sources.length runtime deadline
      hrequests
    have hsum : ((s.frames ++ [callFrame runtime deadline keys]).map
        (Frame.costIn b.sources.length U.card r)).sum = s.costIn b.sources.length U.card r +
          (callFrame runtime deadline keys : Frame K V).costIn b.sources.length U.card r := by
      rw [List.map_append, List.sum_append, List.map_singleton, List.sum_singleton]
      rfl
    have hnew : (callFrame runtime deadline keys : Frame K V).costIn b.sources.length U.card r ≤
        if callsIn r (.call runtime deadline keys : Label K V) then
          resolutionCost b.sources.length U.card else 0 := by
      show (if runtime = r then _ else 0) ≤ if decide (runtime = r) then _ else 0
      by_cases hrr : runtime = r
      · simp only [hrr, decide_true, if_true]
        exact hcall
      · simp [hrr]
    unfold State.potential
    rw [State.costIn, hsum]
    simp only [movesIn, Bool.false_eq_true, if_false]
    omega
  | external => exact le_rfl

/-! ## Runs -/

theorem sum_calls (r n : ℕ) : ∀ ls : List (Label K V),
    (ls.map fun l => if callsIn r l then n else 0).sum = ls.countP (callsIn r) * n
  | [] => by simp
  | l :: ls => by
      rw [List.map_cons, List.sum_cons, sum_calls r n ls, List.countP_cons, Nat.add_mul]
      split <;> omega

/-- One runtime's coroutines move a bounded number of times for each call of its session. -/
theorem RunOf.moves_le (hclosed : ∀ k ∈ U, ∀ d, b.DependsOn k d → d ∈ U) (hhad : b.MakesOnly had)
    {now : ℚ} {cache : AsyncMemoryCache K V} {revisions : List (Dict K ℕ)}
    {ls : List (Label K V)} {t : State K V}
    (h : RunOf b.step (fun _ l => RequestsWithin (· ∈ U) l ∧ BringsOnly had l)
      (State.initial now cache revisions) ls t)
    (hcache : ∀ k v, cache.get? k = some v → had k) (r : ℕ) :
    countAlong b.step (movesIn r) (State.initial now cache revisions) ls ≤
      (ls.countP (callsIn r) + 1) * resolutionCost b.sources.length U.card := by
  generalize hcost : resolutionCost b.sources.length U.card = cost
  have hcount : countAlong b.step (movesIn r) (State.initial now cache revisions) ls ≤
      (State.initial now cache revisions).potential b.sources.length U.card r +
        (ls.map fun l => if callsIn r l then cost else 0).sum := by
    refine h.countAlong_le (fun s => Derives b (· ∈ U) had s ∧ RuntimesOpen s)
      (fun s => s.potential b.sources.length U.card r) _ (movesIn r) ?_ ?_ ⟨?_, ?_⟩
    · intro s l u hl hs hstep
      have hstepped := step_cases hstep
      exact ⟨hstepped.derives hclosed hhad hl.1 hl.2 hs.1, hstepped.runtimesOpen hs.2⟩
    · intro s l u hl hs hstep
      rw [← hcost]
      exact (step_cases hstep).potential hs.2 hl.1
        (fun i f source keys hf hbody => roomy_of_keeps hclosed hs.1.shape hs.1.keeps hf hbody) r
    · exact derives_initial b _ had now revisions hcache
    · intro i f hf
      simp [State.frame?, State.initial] at hf
  have hstart : (State.initial now cache revisions).potential b.sources.length U.card r = cost := by
    simp [State.potential, State.costIn, State.initial, hcost]
  rw [hstart, sum_calls] at hcount
  rw [Nat.add_mul]
  omega

/-- The errors a coroutine holds. -/
def Body.Reports (e : Error K) : Body K V → Prop
  | .resolveMany _ l p => (∃ k, l.errors.get? k = some e) ∨ p = .raised e
  | .resolveOwned _ l p => (∃ k, l.resolved.get? k = some (.error e)) ∨ p = .raised e
  | .work _ _ (.done attempts) => ∃ k, (k, .failed e) ∈ attempts
  | .produce _ settled _ =>
    ∃ k, settled.get? k = some (.error e) ∨ settled.get? k = some (.ok (.error e))
  | _ => False

theorem Body.Reports.sound {called : ℕ → Scope K → Call K → Prop} {c : Scope K} {body : Body K V}
    {e : Error K} (h : body.Reports e)
    (hholds : (derivations b (· ∈ U) had).Holds called c body) : b.CycleSound e := by
  cases body with
  | resolveMany keys l p =>
    rcases h with ⟨k, hk⟩ | rfl
    · exact hholds.1.errors k e hk
    · exact hholds.2
  | resolveOwned keys l p =>
    rcases h with ⟨k, hk⟩ | rfl
    · exact hholds.1.resolved k _ hk
    · exact hholds.2
  | work source keys p =>
    cases p with
    | done attempts =>
      obtain ⟨k, hk⟩ := h
      exact hholds.2 _ hk
    | _ => cases h
  | produce owned settled p =>
    obtain ⟨k, hk | hk⟩ := h
    · exact hholds.2.1 k _ hk
    · exact hholds.2.1 k _ hk
  | refresh key p => cases h

/-- In every run in which nothing joins a flight that already waits for it: no coroutine is stuck,
each runtime's coroutines move a bounded number of times, every reported cycle is a cycle of
declared dependencies, and a key that cannot be had without going in circles ends with an error. A
step that joins backwards makes flights wait in a circle. -/
theorem cycles_detected (b : Builder K V) {U : Finset K}
    (hclosed : ∀ k ∈ U, ∀ d, b.DependsOn k d → d ∈ U) {now : ℚ} {cache : AsyncMemoryCache K V}
    {revisions : List (Dict K ℕ)} {ls : List (Label K V)} {t : State K V}
    (h : RunOf b.step (fun s l => JoinsForward s l ∧ RequestsWithin (· ∈ U) l ∧
      BringsOnly (b.Had cache) l) (State.initial now cache revisions) ls t) :
    (∀ i, t.Unfinished i → ∃ j, Relation.ReflTransGen t.Awaits i j ∧ Enabled b t j) ∧
    (∀ r, countAlong b.step (movesIn r) (State.initial now cache revisions) ls ≤
      (ls.countP (callsIn r) + 1) * resolutionCost b.sources.length U.card) ∧
    (∀ i f path, t.frame? i = some f → f.body.Reports (.dependencyCycle path) → b.Cycle path) ∧
    (∀ i c keys l, t.frame? i = some ⟨c, .resolveMany keys l .done⟩ → ∀ k ∈ keys,
      ¬ b.Had cache k → l.values.get? k = none ∧ ∃ e, l.errors.get? k = some e) ∧
    ∀ l u, b.step t l = some u → ¬ JoinsForward t l → ¬ Acyclic u.FlightWaits := by
  have hflights : FlightInvariant b t :=
    h.invariant (FlightInvariant b) (fun s l u hl hs hstep =>
      (step_cases hstep).flightInvariant hl.1 hs) (flightInvariant_initial b now cache revisions)
  have hhad := had_makesOnly b cache
  have hcache : ∀ k v, cache.get? k = some v → b.Had cache k := fun k v hv => had_cached hv
  obtain ⟨hshape, _, hk⟩ := h.invariant (Derives b (· ∈ U) (b.Had cache))
    (fun s l u hl hs hstep => (step_cases hstep).derives hclosed hhad hl.2.1 hl.2.2 hs)
    (derives_initial b _ _ now revisions hcache)
  refine ⟨fun i hi => exists_awaited_move hshape hflights.acyclic hi, ?_, ?_, ?_,
    fun l u hstep hl => closes_circle hflights hstep hl⟩
  · exact (h.mono fun _ _ hl => hl.2).moves_le hclosed hhad hcache
  · intro i f path hf hreports
    exact hreports.sound (hk i f hf trivial) path rfl
  · intro i c keys l hf k hmem hn
    have hholds := (hk i _ hf trivial).1
    have hnone : l.values.get? k = none := by
      cases hv : l.values.get? k with
      | none => rfl
      | some v => exact absurd (hholds.values k v hv) hn
    have hsettled := (hshape.frames i _ hf).body k hmem
    rw [Dict.mem_keys, Dict.mem_keys, hnone] at hsettled
    refine ⟨hnone, ?_⟩
    rcases hsettled with ⟨v, hv⟩ | herror
    · cases hv
    · exact herror

end

/-! ## A cycle entered from two sides -/

/-- Keys 0 and 1 are derived from each other, key 2 from key 0 and key 3 from key 1. -/
def circleDependencies : ℕ → List ℕ
  | 0 => [1]
  | 1 => [0]
  | 2 => [0]
  | 3 => [1]
  | _ => []

def circleBuilder : Builder ℕ ℕ :=
  .layered circleDependencies (.blocking 10 20 ten_nonneg ten_le_twenty) id

theorem circleBuilder_closed : ∀ k ∈ Finset.range 4, ∀ d, circleBuilder.DependsOn k d →
    d ∈ Finset.range 4 := by
  intro k _ d h
  rw [circleBuilder, Builder.layered_dependsOn] at h
  rw [Finset.mem_range]
  unfold circleDependencies at h
  split at h <;> simp_all

/-- No key below 4 can be had from an empty cache. -/
theorem circleBuilder_not_had {k : ℕ} (hk : k < 4) :
    ¬ circleBuilder.Had (.new none (by simp)) k := by
  refine not_grounded_of_closed (S := fun k => k < 4) ?_ hk
  rintro k hk parts (⟨source, hsource, hsupports, hparts⟩ | ⟨_, v, hv⟩)
  · have hdeclared : circleDependencies k ≠ [] ∧ ∀ d ∈ circleDependencies k, d < 4 := by
      unfold circleDependencies
      split <;> simp_all
      omega
    simp only [circleBuilder, Builder.layered, List.mem_cons, List.not_mem_nil, or_false] at hsource
    rcases hsource with rfl | rfl
    · rcases hparts with ⟨hkind, _⟩ | ⟨_, hdep⟩
      · exact absurd rfl hkind
      · rw [Except.ok.injEq] at hdep
        obtain ⟨d, hd⟩ := List.exists_mem_of_ne_nil _ hdeclared.1
        exact ⟨d, hdep ▸ hd, hdeclared.2 d hd⟩
    · simp [hdeclared.1] at hsupports
  · cases hv

/-- A build of key 2 alone. -/
def oneSided : List (Label ℕ ℕ) :=
  [.openRuntime .new, .call 0 none [2]] ++
    turns [(0, 6), (1, 1), (2, 2), (3, 1), (4, 6), (5, 1), (6, 2), (7, 1), (8, 6), (9, 1), (10, 2),
      (11, 1), (10, 7), (9, 2), (8, 3), (7, 1), (6, 7), (5, 2), (4, 3), (3, 1), (2, 7), (1, 2), (0, 3)]

/-- A build of keys 2 and 3 whose derived workers take turns. -/
def twoSided : List (Label ℕ ℕ) :=
  [.openRuntime .new, .call 0 none [2, 3]] ++
    turns [(0, 7), (1, 1), (2, 3), (3, 1), (4, 1), (5, 6), (6, 6), (7, 1), (8, 1), (9, 2), (10, 2),
      (11, 1), (12, 1), (13, 6), (14, 6)]

/-- The cycle that unit of work `i` reports. -/
def State.cycleAt {K V : Type} [DecidableEq K] (s : State K V) (i : ℕ) : Option (List K) :=
  match s.frame? i with
  | some ⟨_, .work _ _ (.done [(_, .failed (.dependencyCycle path))])⟩ => some path
  | _ => none

theorem reports_of_cycleAt {K V : Type} [DecidableEq K] {s : State K V} {i : ℕ} {path : List K}
    (h : s.cycleAt i = some path) :
    ∃ f, s.frame? i = some f ∧ f.body.Reports (.dependencyCycle path) := by
  unfold State.cycleAt at h
  split at h
  · rename_i hf
    rw [Option.some.injEq] at h
    exact ⟨_, hf, _, List.mem_singleton.mpr (by rw [h])⟩
  · cases h

/-- What the finished `_resolve_many` of frame `i` was asked for. -/
def State.askedAt {K V : Type} [DecidableEq K] (s : State K V) (i : ℕ) : Option (List K) :=
  match s.frame? i with
  | some ⟨_, .resolveMany keys _ .done⟩ => some keys
  | _ => none

theorem frame_of_askedAt {K V : Type} [DecidableEq K] {s : State K V} {i : ℕ} {keys : List K}
    (h : s.askedAt i = some keys) : ∃ c l, s.frame? i = some ⟨c, .resolveMany keys l .done⟩ := by
  unfold State.askedAt at h
  split at h
  · rename_i hf
    rw [Option.some.injEq] at h
    subst h
    exact ⟨_, _, hf⟩
  · cases h

theorem mem_turns {moves : List (ℕ × ℕ)} {l : Label ℕ ℕ} (h : l ∈ turns moves) :
    ∃ i, l = .run i .go := by
  obtain ⟨e, _, hl⟩ := List.mem_flatMap.mp h
  exact ⟨e.1, (List.mem_replicate.mp hl).2⟩

/-- A cycle entered from one side is reported, and the build ends with an error. -/
theorem cycles_detected_one_sided : ∃ t : State ℕ ℕ,
    RunOf circleBuilder.step (fun s l => JoinsForward s l ∧
      RequestsWithin (· ∈ Finset.range 4) l ∧
      BringsOnly (circleBuilder.Had (.new none (by simp))) l) coldState oneSided t ∧
    circleBuilder.Cycle [0, 1, 0] ∧
    ∃ c l e, t.frame? 0 = some ⟨c, .resolveMany [2] l .done⟩ ∧ l.errors.get? 2 = some e := by
  have hend : (execOf circleBuilder.step joinsIdle coldState oneSided).map
      (fun t => (t.cycleAt 11, t.askedAt 0)) = some (some [0, 1, 0], some [2]) := by
    decide +kernel
  obtain ⟨t, ht, hfacts⟩ := Option.map_eq_some_iff.mp hend
  rw [Prod.mk.injEq] at hfacts
  obtain ⟨f, hf, hreports⟩ := reports_of_cycleAt hfacts.1
  obtain ⟨c, l, hasked⟩ := frame_of_askedAt hfacts.2
  have hlabels : ∀ l ∈ oneSided, RequestsWithin (· ∈ Finset.range 4) l ∧
      BringsOnly (circleBuilder.Had (.new none (by simp))) l := by
    intro l hl
    rcases List.mem_append.mp hl with hl | hl
    · simp only [List.mem_cons, List.not_mem_nil, or_false] at hl
      rcases hl with rfl | rfl
      · exact ⟨trivial, fun k v hv => by cases hv⟩
      · exact ⟨by simp [RequestsWithin], trivial⟩
    · obtain ⟨i, rfl⟩ := mem_turns hl
      exact ⟨trivial, trivial⟩
  have hrun := ((execOf_run ht).mono fun _ _ => joinsForward_of_joinsIdle).and_labels hlabels
  obtain ⟨_, _, hcycle, herrors, _⟩ := cycles_detected circleBuilder circleBuilder_closed hrun
  obtain ⟨_, e, he⟩ := herrors 0 c [2] l hasked 2 List.mem_cons_self
    (circleBuilder_not_had (by decide))
  exact ⟨t, hrun, hcycle 11 f _ hf hreports, c, l, e, hasked, he⟩

/-- A single build of two keys enters the cycle from both sides: the producers of keys 0 and 1 wait
for each other, no cycle is reported and nothing can move. -/
theorem two_sided_cycle_deadlocks : ∃ t : State ℕ ℕ, Run circleBuilder.step coldState twoSided t ∧
    t.FlightWaits 7 8 ∧ t.FlightWaits 8 7 ∧ t.Unfinished 0 ∧
    ∀ j, ¬ Enabled circleBuilder t j := by
  have hend : (exec circleBuilder.step coldState twoSided).map (fun t =>
      (t.waitsAt 13 7 8 1, t.waitsAt 14 8 7 0, t.frames.all t.blocked,
        (t.frame? 0).map fun f => f.body.finished)) = some (true, true, true, some false) := by
    decide +kernel
  obtain ⟨t, ht, hfacts⟩ := Option.map_eq_some_iff.mp hend
  simp only [Prod.mk.injEq] at hfacts
  obtain ⟨h78, h87, hblocked, hzero⟩ := hfacts
  obtain ⟨f, hf, hfin⟩ := Option.map_eq_some_iff.mp hzero
  exact ⟨t, exec_run ht, flightWaits_of_waitsAt h78, flightWaits_of_waitsAt h87, ⟨f, hf, hfin⟩,
    not_enabled_of_all_blocked hblocked⟩

end Coalestra
