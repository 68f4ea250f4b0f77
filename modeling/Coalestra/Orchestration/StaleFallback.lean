import Coalestra.Orchestration.SourceChain

/-! # The stale fallback

A key that `_resolve_many` sends to the sources gets the value of the source loop that resolved it,
its own or that of a flight it joined, and the cached stale value only when that loop failed. A result
is followed from the loop through its producer, the future and the joined call (`FrameTold`), and the
cached candidate from the lookup to the fallback (`Tracked`). -/

namespace Coalestra
set_option autoImplicit false
set_option maxHeartbeats 250000

section
variable {K V : Type} [DecidableEq K]

/-! ## The inputs of one key -/

/-- What decides a key besides its policy: the time, the answers that each loop gets, what the memos
of the sessions have for it in the meantime, and the rank of its sources. -/
structure KeyInputs (K V : Type) where
  key : K
  now : ℚ
  answer : ℕ → Source K → SourceAttempt K V
  memo : SnapshotValue K V → Prop
  rank : ℤ

variable (b : Builder K V) (X : KeyInputs K V)

/-- What loop `i` learns about the key in a session with these exclusions. -/
def KeyInputs.inquiry (i : ℕ) (r : ResolutionRuntime K V) : Inquiry K V :=
  ⟨X.key, X.now, r.sourceIsExcluded X.key, X.answer i⟩

/-- The stale answers of loop `i` that the policy tolerates. -/
def KeyInputs.staleAnswers (i : ℕ) (r : ResolutionRuntime K V) : List (SnapshotValue K V) :=
  b.sources.filterMap (b.staleFrom (X.inquiry i r))

/-- Every loop of the key has these inputs. -/
def KeyInputs.Steady (s : State K V) (l : Label K V) : Prop :=
  ∀ i, Coalestra.Steady i X.key (X.answer i) X.memo X.rank s l

/-- Frame `i` is a source loop of the key; `forced` is whether its session had to refresh the key when
the loop started. -/
def ChainLoop (s : State K V) (i : ℕ) (forced : Bool) : Prop :=
  ∃ c keys r₀, X.key ∈ keys ∧ r₀.requiresRefresh X.key = forced ∧
    ChainRun b (X.inquiry i r₀) r₀ X.memo X.rank i c keys s

/-- A source loop has returned this result for the key. -/
def Told (s : State K V) (forced : Bool) (r : ResolutionResult K V) : Prop :=
  ∃ i resolved, ChainLoop b X s i forced ∧ s.ownedOutcome i = some (.ok resolved) ∧
    resolved.get? X.key = some r

/-- The session need not refresh the key. -/
def Free (s : State K V) (c : Scope K) : Prop :=
  X.key ∉ (s.runtime c.runtime).forceRefreshKeys

variable {b X} {s t : State K V} {c : Scope K} {e : Event K V} {m : Step K V} {i : ℕ}
  {l : Label K V} {forced : Bool}

theorem ChainLoop.step (hranks : ∀ source ∈ b.sources,
      (b.authorityFor X.key).rankFor source.name = X.rank) (hl : X.Steady s l)
    (h : b.step s l = some t) (hs : ChainLoop b X s i forced) : ChainLoop b X t i forced := by
  obtain ⟨c, keys, r₀, hk, hforced, hrun⟩ := hs
  exact ⟨c, keys, r₀, hk, hforced, hrun.step hranks (fun _ => rfl) (hl i) h⟩

/-- A loop that starts. -/
theorem chainLoop_started {keys : List K} (hnow : t.now = X.now) (hopen : c.runtime < t.runtimes.length)
    (hf : t.frame? i = some ⟨c, .resolveOwned keys (.new keys) (.visiting b.sources)⟩)
    (hn : keys.Nodup) (hk : X.key ∈ keys) :
    ChainLoop b X t i ((t.runtime c.runtime).requiresRefresh X.key) := by
  exact ⟨c, keys, t.runtime c.runtime, hk, rfl, hnow, hopen, ⟨rfl, .inl, id⟩, _, _, hf,
    .inr (chainHolds_new hn hk)⟩

/-- What a finished loop returned stays. -/
theorem Stepped.ownedOutcome (h : Stepped b s l t) {resolved : Dict K (ResolutionResult K V)}
    (hi : s.ownedOutcome i = some (.ok resolved)) : t.ownedOutcome i = some (.ok resolved) := by
  obtain ⟨c, keys, lo, hf, rfl⟩ := ownedOutcome_ok hi
  have hkeep : t.frame? i = some ⟨c, .resolveOwned keys lo .done⟩ := by
    cases h with
    | @run j e f m hj hm =>
      by_cases hij : i = j
      · subst hij
        rw [hf, Option.some.injEq] at hj
        subst hj
        cases hm with
        | owned hm =>
          cases hm with
          | interrupt hp => cases hp
      · exact frame?_apply_other m hj hf hij
    | call => exact frame?_append hf
    | _ => exact hf
  unfold State.ownedOutcome
  rw [hkeep]

theorem Told.step (hranks : ∀ source ∈ b.sources,
      (b.authorityFor X.key).rankFor source.name = X.rank) (hl : X.Steady s l)
    (h : b.step s l = some t) {r : ResolutionResult K V} (hs : Told b X s forced r) :
    Told b X t forced r := by
  obtain ⟨i, resolved, hloop, ho, hr⟩ := hs
  exact ⟨i, resolved, hloop.step hranks hl h, (step_cases h).ownedOutcome ho, hr⟩

theorem Free.step (h : Stepped b s l t) (hopen : c.runtime < s.runtimes.length)
    (hs : Free X s c) : Free X t c :=
  h.runtime_stored (P := fun r => X.key ∉ r.forceRefreshKeys) hopen
    (fun hst hp hk => hp (hst.force_subset hk)) hs

/-! ## What the frames hold of the key -/

/-- Before the sources are asked: nothing has a result. -/
def ManyPhase.early : ManyPhase K V → Bool
  | .start | .reading _ _ | .isolating _ | .serving _ | .copying _ _ _ => true
  | _ => false

/-- The keys that the cache is asked for. -/
def ManyPhase.lookedUp : ManyPhase K V → List K
  | .reading cacheKeys _ => cacheKeys
  | .isolating lookups | .serving lookups => lookups.map Prod.fst
  | .copying key _ rest => key :: rest.map Prod.fst
  | _ => []

/-- The keys that go to a flight. -/
def ManyPhase.sharing : ManyPhase K V → List K
  | .resolving _ shared | .reserving shared => shared
  | _ => []

/-- The value is as old as the cached candidate, and the loop has failed. -/
def FromCandidate (X : KeyInputs K V) (l : ManyLocals K V) (v : SnapshotValue K V) : Prop :=
  ∃ err w, l.results.get? X.key = some (.error err) ∧ l.staleCandidates.get? X.key = some w ∧
    v.observedAt = w.observedAt

/-- What `_resolve_many` holds of the key: where its results come from and what it makes of them. -/
structure ManyTold (b : Builder K V) (X : KeyInputs K V) (s : State K V) (c : Scope K)
    (l : ManyLocals K V) (p : ManyPhase K V) : Prop where
  lookedUp : X.key ∈ p.lookedUp → Free X s c
  candidate : (l.staleCandidates.get? X.key).isSome → Free X s c
  sharing : X.key ∈ p.sharing → Free X s c
  child : ∀ child shared, p = .resolving child shared → ∃ cc owned,
    s.Called child cc (.owned owned) ∧ (X.key ∈ owned →
      (l.staleCandidates.get? X.key).isSome → ChainLoop b X s child false)
  early : p.early = true → l.results.get? X.key = none
  begun : p = .start → l.staleCandidates.get? X.key = none
  unkept : X.key ∈ p.lookedUp → l.staleCandidates.get? X.key = none
  results : ∀ r, l.results.get? X.key = some r → ∃ forced, Told b X s forced r ∧
    ((l.staleCandidates.get? X.key).isSome → forced = false)
  copy : ∀ copy rest, p = .fallback X.key copy rest → FromCandidate X l copy
  values : X.key ∈ l.pending → ∀ v, l.values.get? X.key = some v →
    l.results.get? X.key = some (.ok v) ∨ FromCandidate X l v

/-- What a producer holds of the key. -/
structure ProduceTold (b : Builder K V) (X : KeyInputs K V) (s : State K V) (c : Scope K)
    (owned : List K) (settled : Dict K (Except (Error K) (ResolutionResult K V)))
    (p : ProducePhase K V) : Prop where
  owned : p = .start → X.key ∈ owned → Free X s c
  child : ∀ child, p = .running child → ∃ cc owned, s.Called child cc (.owned owned) ∧
    (X.key ∈ owned → ChainLoop b X s child false)
  outcome : ∀ rest resolved, p = .completing rest (.ok resolved) → ∀ r,
    resolved.get? X.key = some r → Told b X s false r
  settled : ∀ r, settled.get? X.key = some (.ok r) → Told b X s false r

def FrameTold (b : Builder K V) (X : KeyInputs K V) (s : State K V) (i : ℕ) (f : Frame K V) : Prop :=
  match f.body with
  | .resolveMany _ l p => ManyTold b X s f.scope l p
  | .resolveOwned keys _ _ => X.key ∈ keys → ∃ forced, ChainLoop b X s i forced
  | .work _ _ _ => True
  | .produce owned settled p => ProduceTold b X s f.scope owned settled p
  | .refresh key p => p = .reserving → key = X.key → Free X s f.scope

/-- A step of another frame keeps it. -/
theorem FrameTold.step (hranks : ∀ source ∈ b.sources,
      (b.authorityFor X.key).rankFor source.name = X.rank) (hl : X.Steady s l)
    (h : b.step s l = some t) {f : Frame K V} (hopen : f.scope.runtime < s.runtimes.length)
    (hs : FrameTold b X s i f) : FrameTold b X t i f := by
  have hfree : ∀ {c : Scope K}, c.runtime < s.runtimes.length → Free X s c → Free X t c :=
    fun ho hf => hf.step (step_cases h) ho
  have hcalled : ∀ {j cc k}, s.Called j cc k → t.Called j cc k := (step_cases h).called
  obtain ⟨c, body⟩ := f
  cases body with
  | resolveMany keys lm p =>
    refine ⟨fun hk => hfree hopen (hs.lookedUp hk), fun hk => hfree hopen (hs.candidate hk),
      fun hk => hfree hopen (hs.sharing hk), fun child shared hp => ?_, hs.early, hs.begun, hs.unkept,
      fun r hr => ?_, hs.copy, hs.values⟩
    · obtain ⟨cc, owned, hc, hloop⟩ := hs.child child shared hp
      exact ⟨cc, owned, hcalled hc, fun ho hw => (hloop ho hw).step hranks hl h⟩
    · obtain ⟨forced, htold, hforced⟩ := hs.results r hr
      exact ⟨forced, htold.step hranks hl h, hforced⟩
  | resolveOwned keys lo p =>
    intro hk
    obtain ⟨forced, hloop⟩ := hs hk
    exact ⟨forced, hloop.step hranks hl h⟩
  | work source keys p => trivial
  | produce owned settled p =>
    refine ⟨fun hp hk => hfree hopen (hs.owned hp hk), fun child hp => ?_, fun rest resolved hp r hr =>
      (hs.outcome rest resolved hp r hr).step hranks hl h,
      fun r hr => (hs.settled r hr).step hranks hl h⟩
    obtain ⟨cc, owned', hc, hloop⟩ := hs.child child hp
    exact ⟨cc, owned', hcalled hc, fun ho => (hloop ho).step hranks hl h⟩
  | refresh key p => exact fun hp hk => hfree hopen (hs hp hk)

/-! ## Moves of `_resolve_many` -/

/-- What the move of a frame may use of the other frames after the step. -/
structure Around (b : Builder K V) (X : KeyInputs K V) (s t : State K V) (c : Scope K) : Prop where
  free : Free X s c → Free X t c
  now : t.now = X.now
  opened : c.runtime < t.runtimes.length
  outcome : ∀ child resolved, s.ownedOutcome child = some (.ok resolved) →
    t.ownedOutcome child = some (.ok resolved)
  loops : ∀ child resolved r, s.ownedOutcome child = some (.ok resolved) →
    resolved.get? X.key = some r → (∃ forced, ChainLoop b X t child forced) ∧
      ∀ cc owned, t.Called child cc (.owned owned) → X.key ∈ owned
  future : ∀ q r, s.future q X.key = some (.ok r) → Told b X t false r

theorem Around.told (ha : Around b X s t c) {child : ℕ} {resolved : Dict K (ResolutionResult K V)}
    {r : ResolutionResult K V} (ho : s.ownedOutcome child = some (.ok resolved))
    (hr : resolved.get? X.key = some r) (hloop : ChainLoop b X t child forced) :
    Told b X t forced r :=
  ⟨child, resolved, hloop, ha.outcome _ _ ho, hr⟩

/-- A started loop of distinct keys. -/
theorem Around.started (ha : Around b X s t c) {cc : Scope K} {keys : List K}
    (hf : t.frame? i = some ⟨cc, .resolveOwned keys (.new keys) (.visiting b.sources)⟩)
    (hc : cc.runtime = c.runtime) (hn : keys.Nodup) (hk : X.key ∈ keys) :
    ChainLoop b X t i ((t.runtime c.runtime).requiresRefresh X.key) := by
  rw [← hc]
  exact chainLoop_started ha.now (by rw [hc]; exact ha.opened) hf hn hk

theorem Free.requiresRefresh (h : Free X t c) :
    (t.runtime c.runtime).requiresRefresh X.key = false := by
  rw [← Bool.not_eq_true, ResolutionRuntime.requiresRefresh_eq_true]
  exact h

omit [DecidableEq K] in
theorem ManyWhole.not_mem_values [DecidableEq K] {keys : List K} {lm : ManyLocals K V}
    {p : ManyPhase K V} (hw : ManyWhole keys lm p) (hn : keys.Nodup) (hp : ∀ err, p ≠ .raised err)
    {k : K} (hk : k ∈ p.undecided keys lm) : lm.values.get? k = none :=
  Dict.get?_eq_none.mpr (undecided_new (hw hp) hn hk).1

/-- While the cached values are looked at nothing has a result. -/
theorem ManyTold.looking {lm : ManyLocals K V} {p : ManyPhase K V}
    (hp : p.early = true ∧ p ≠ .start) (hlooked : X.key ∈ p.lookedUp → Free X s c)
    (hcandidate : (lm.staleCandidates.get? X.key).isSome → Free X s c)
    (hearly : lm.results.get? X.key = none)
    (hunkept : X.key ∈ p.lookedUp → lm.staleCandidates.get? X.key = none)
    (hvalues : X.key ∈ lm.pending → lm.values.get? X.key = none) : ManyTold b X s c lm p := by
  have hresults : ∀ r, lm.results.get? X.key = some r → ∃ forced, Told b X s forced r ∧
      ((lm.staleCandidates.get? X.key).isSome → forced = false) := by
    intro r hr
    rw [hearly] at hr
    cases hr
  have hheld : X.key ∈ lm.pending → ∀ v, lm.values.get? X.key = some v →
      lm.results.get? X.key = some (.ok v) ∨ FromCandidate X lm v := by
    intro hk v hv
    rw [hvalues hk] at hv
    cases hv
  refine ⟨hlooked, hcandidate, ?_, ?_, fun _ => hearly, fun hstart => absurd hstart hp.2, hunkept,
    hresults, ?_, hheld⟩
  · cases p <;> simp [ManyPhase.sharing, ManyPhase.early] at hp ⊢
  · cases p <;> simp [ManyPhase.early] at hp ⊢
  · cases p <;> simp [ManyPhase.early] at hp ⊢

/-- Keys that go to a flight are not forced. -/
theorem ManyTold.reserving {lm : ManyLocals K V} {shared : List K}
    (hshared : X.key ∈ shared → Free X s c)
    (hcandidate : (lm.staleCandidates.get? X.key).isSome → Free X s c)
    (hresults : ∀ r, lm.results.get? X.key = some r → ∃ forced, Told b X s forced r ∧
      ((lm.staleCandidates.get? X.key).isSome → forced = false))
    (hvalues : X.key ∈ lm.pending → ∀ v, lm.values.get? X.key = some v →
      lm.results.get? X.key = some (.ok v) ∨ FromCandidate X lm v) :
    ManyTold b X s c lm (.reserving shared) := by
  refine ⟨?_, hcandidate, hshared, ?_, ?_, ?_, ?_, hresults, ?_, hvalues⟩ <;>
    simp [ManyPhase.lookedUp, ManyPhase.early]

/-- The phases in which the locals alone say what is held. -/
def ManyPhase.settled : ManyPhase K V → Bool
  | .joining _ | .collecting _ | .done | .raised _ => true
  | _ => false

theorem ManyTold.settled {lm : ManyLocals K V} {p : ManyPhase K V} (hp : p.settled = true)
    (hcandidate : (lm.staleCandidates.get? X.key).isSome → Free X s c)
    (hresults : ∀ r, lm.results.get? X.key = some r → ∃ forced, Told b X s forced r ∧
      ((lm.staleCandidates.get? X.key).isSome → forced = false))
    (hvalues : X.key ∈ lm.pending → ∀ v, lm.values.get? X.key = some v →
      lm.results.get? X.key = some (.ok v) ∨ FromCandidate X lm v) : ManyTold b X s c lm p := by
  refine ⟨?_, hcandidate, ?_, ?_, ?_, ?_, ?_, hresults, ?_, hvalues⟩ <;> cases p <;>
    simp [ManyPhase.lookedUp, ManyPhase.sharing, ManyPhase.early, ManyPhase.settled] at hp ⊢

theorem ManyMove.told {keys : List K} {lm : ManyLocals K V} {p : ManyPhase K V}
    (hm : ManyMove b s c keys lm p e m) (hn : keys.Nodup) (hw : ManyWhole keys lm p)
    (ha : Around b X s t c) (hspawn : ∀ g, m.spawn = some g → t.frame? s.frames.length = some g)
    (h : ManyTold b X t c lm p) :
    ∃ l' p', m.body = .resolveMany keys l' p' ∧ ManyTold b X t c l' p' := by
  have hshared : X.key ∈ lm.pending.filter (fun key => !ownsDirectly c (s.runtime c.runtime) key) →
      Free X t c := by
    intro hk
    refine ha.free fun hforced => ?_
    have hnot := (List.mem_filter.mp hk).2
    rw [ownsDirectly, (ResolutionRuntime.requiresRefresh_eq_true).mpr hforced, Bool.or_true] at hnot
    cases hnot
  have hempty : (∀ err, p ≠ .raised err) → (∀ k ∈ lm.pending, k ∈ p.undecided keys lm) →
      X.key ∈ lm.pending → lm.values.get? X.key = none :=
    fun hp hundecided hk => hw.not_mem_values hn hp (hundecided _ hk)
  cases hm with
  | start =>
    have hfree : X.key ∈ cacheKeysOf (s.runtime c.runtime) keys → Free X t c := by
      intro hk
      refine ha.free fun hforced => ?_
      have hfilter := (List.mem_filter.mp hk).2
      rw [(ResolutionRuntime.requiresRefresh_eq_true).mpr hforced] at hfilter
      cases hfilter
    have hvalues : X.key ∈ keys.filter (s.runtime c.runtime).requiresRefresh →
        (Dict.comprehend keys (s.runtime c.runtime).pinned).get? X.key = none := by
      intro hk
      have hforced := (List.mem_filter.mp hk).2
      rw [Dict.get?_comprehend, ResolutionRuntime.pinned, if_pos hforced, ite_self]
    refine ⟨_, _, rfl, .looking ?_ ?_ h.candidate (h.early rfl) (fun _ => h.begun rfl) hvalues⟩
    · split <;> simp [ManyPhase.early]
    · split
      · simp [ManyPhase.lookedUp]
      · exact hfree
  | @read cacheKeys now =>
    have hkeys : X.key ∈ ManyPhase.lookedUp
        (.isolating (s.cache.getMany now b.policyFor cacheKeys).1) → X.key ∈ cacheKeys := by
      intro hk
      rw [ManyPhase.lookedUp, AsyncMemoryCache.getMany, AsyncMemoryCache.getManyLocked_keys] at hk
      exact Dict.mem_fromKeys.mp hk
    refine ⟨_, _, rfl, .looking (by simp [ManyPhase.early]) (fun hk => h.lookedUp (hkeys hk))
      h.candidate (h.early rfl) (fun hk => h.unkept (hkeys hk)) ?_⟩
    exact hempty (by simp) fun k hk => List.mem_append_left _ hk
  | @isolate lookups =>
    have hkeys : X.key ∈ ManyPhase.lookedUp (.serving (lookups.map fun e =>
        (e.1, isolatedLookup b.copier e.2))) → X.key ∈ ManyPhase.lookedUp (.isolating lookups) := by
      simp [ManyPhase.lookedUp, List.map_map, Function.comp_def]
    refine ⟨_, _, rfl, .looking (by simp [ManyPhase.early]) (fun hk => h.lookedUp (hkeys hk))
      h.candidate (h.early rfl) (fun hk => h.unkept (hkeys hk)) ?_⟩
    exact hempty (by simp) fun k hk => List.mem_append_left _ hk
  | served => exact ⟨_, _, rfl, .settled rfl h.candidate h.results h.values⟩
  | share hd => exact ⟨_, _, rfl, .reserving hshared h.candidate h.results h.values⟩
  | delegate hd =>
    refine ⟨_, _, rfl, ?_, h.candidate, hshared, ?_, ?_, ?_, ?_, h.results, ?_, h.values⟩
    · simp [ManyPhase.lookedUp]
    · rintro child shared ⟨⟩
      have hf := hspawn _ rfl
      refine ⟨_, _, ⟨_, hf, rfl, rfl⟩, fun hk hcandidate => ?_⟩
      have hloop := ha.started hf rfl ((pending_nodup hw hn).filter _) hk
      rwa [(h.candidate hcandidate).requiresRefresh] at hloop
    · simp [ManyPhase.early]
    · simp
    · simp [ManyPhase.lookedUp]
    · simp
  | hit =>
    refine ⟨_, _, rfl, .looking (by simp [ManyPhase.early]) h.lookedUp h.candidate (h.early rfl)
      h.unkept ?_⟩
    exact hempty (by simp) fun k hk => List.mem_append_left _ hk
  | @miss key lookup rest =>
    refine ⟨_, _, rfl, .looking (by simp [ManyPhase.early])
      (fun hk => h.lookedUp (List.mem_cons_of_mem _ hk)) h.candidate (h.early rfl)
      (fun hk => h.unkept (List.mem_cons_of_mem _ hk)) fun hk => ?_⟩
    refine hw.not_mem_values hn (by simp) ?_
    rcases List.mem_append.mp hk with hk | hk
    · exact List.mem_append_left _ hk
    · rw [List.mem_singleton.mp hk]
      exact List.mem_append_right _ List.mem_cons_self
  | @missStale key lookup rest value hv hf hu =>
    refine ⟨_, _, rfl, .looking (by simp [ManyPhase.early])
      (fun hk => h.lookedUp (List.mem_cons_of_mem _ hk)) (fun hk => ?_) (h.early rfl)
      (fun hk => ?_) fun hk => ?_⟩
    · by_cases heq : X.key = key
      · exact h.lookedUp (heq ▸ List.mem_cons_self)
      · dsimp only at hk
        rw [Dict.get?_set_ne _ _ heq] at hk
        exact h.candidate hk
    · have hdistinct : (lm.pending ++ key :: rest.map Prod.fst).Nodup :=
        (List.nodup_append.mp ((hw (by simp)).nodup_iff.mpr hn)).2.1
      have hne : X.key ≠ key := by
        rintro rfl
        exact (List.nodup_cons.mp (List.nodup_append.mp hdistinct).2.1).1 hk
      exact (Dict.get?_set_ne _ _ hne).trans (h.unkept (List.mem_cons_of_mem _ hk))
    · refine hw.not_mem_values hn (by simp) ?_
      rcases List.mem_append.mp hk with hk | hk
      · exact List.mem_append_left _ hk
      · rw [List.mem_singleton.mp hk]
        exact List.mem_append_right _ List.mem_cons_self
  | @install key copy rest =>
    refine ⟨_, _, rfl, .looking (by simp [ManyPhase.early])
      (fun hk => h.lookedUp (List.mem_cons_of_mem _ hk)) h.candidate (h.early rfl)
      (fun hk => h.unkept (List.mem_cons_of_mem _ hk)) fun hk => ?_⟩
    have hdistinct : (lm.pending ++ key :: rest.map Prod.fst).Nodup :=
      (List.nodup_append.mp ((hw (by simp)).nodup_iff.mpr hn)).2.1
    have hne : X.key ≠ key := by
      rintro heq
      exact (List.nodup_append.mp hdistinct).2.2 _ hk _ List.mem_cons_self heq
    exact (Dict.get?_set_ne _ _ hne).trans
      (hempty (by simp) (fun k hk => List.mem_append_left _ hk) hk)
  | @delegated child shared resolved ho =>
    have hresults : ∀ r, (lm.results.update resolved).get? X.key = some r → ∃ forced,
        Told b X t forced r ∧ ((lm.staleCandidates.get? X.key).isSome → forced = false) := by
      intro r hr
      rcases Dict.get?_update_cases hr with hr | hr
      · obtain ⟨cc, owned, hcalled, hchild⟩ := h.child child shared rfl
        obtain ⟨⟨forced, hloop⟩, howned⟩ := ha.loops child resolved r ho hr
        by_cases hcandidate : (lm.staleCandidates.get? X.key).isSome
        · exact ⟨false, ha.told ho hr (hchild (howned cc owned hcalled) hcandidate), fun _ => rfl⟩
        · exact ⟨forced, ha.told ho hr hloop, fun hk => absurd hk hcandidate⟩
      · exact h.results r hr
    have hvalues : X.key ∈ lm.pending → ∀ v, lm.values.get? X.key = some v →
        (lm.results.update resolved).get? X.key = some (.ok v) ∨
          FromCandidate X { lm with results := lm.results.update resolved } v := by
      intro hk v hv
      rw [hempty (by simp) (fun k hk => hk) hk] at hv
      cases hv
    refine ⟨_, _, rfl, ?_⟩
    split
    · exact .settled rfl h.candidate hresults hvalues
    · exact .reserving h.sharing h.candidate hresults hvalues
  | delegateRaised => exact ⟨_, _, rfl, .settled rfl h.candidate h.results h.values⟩
  | reserve => exact ⟨_, _, rfl, .settled rfl h.candidate h.results h.values⟩
  | @joined futures joined hj =>
    refine ⟨_, _, rfl, .settled rfl h.candidate (fun r hr => ?_) fun hk v hv => ?_⟩
    · rcases Dict.get?_update_cases hr with hr | hr
      · obtain ⟨q, _, hq⟩ := joined_get? hj hr
        exact ⟨false, ha.future q r hq, fun _ => rfl⟩
      · exact h.results r hr
    · rw [hempty (by simp) (fun k hk => hk) hk] at hv
      cases hv
  | joinRaised => exact ⟨_, _, rfl, .settled rfl h.candidate h.results h.values⟩
  | collected => exact ⟨_, _, rfl, .settled rfl h.candidate h.results h.values⟩
  | collectMissing => exact ⟨_, _, rfl, .settled rfl h.candidate h.results h.values⟩
  | @collectValue key rest value hr =>
    refine ⟨_, _, rfl, .settled rfl h.candidate h.results fun hk v hv => ?_⟩
    rcases Dict.get?_set_cases hv with ⟨rfl, rfl⟩ | hv
    · exact .inl hr
    · exact h.values hk v hv
  | collectError => exact ⟨_, _, rfl, .settled rfl h.candidate h.results h.values⟩
  | @collectStale key rest err value hr hc =>
    refine ⟨_, _, rfl, ?_, h.candidate, ?_, ?_, ?_, ?_, ?_, h.results, ?_, h.values⟩
    · simp [ManyPhase.lookedUp]
    · simp [ManyPhase.sharing]
    · simp
    · simp [ManyPhase.early]
    · simp
    · simp [ManyPhase.lookedUp]
    · rintro copy rest ⟨⟩
      exact ⟨err, value, hr, hc, rfl⟩
  | @fallBack key copy rest =>
    refine ⟨_, _, rfl, .settled rfl h.candidate h.results fun hk v hv => ?_⟩
    rcases Dict.get?_set_cases hv with ⟨rfl, rfl⟩ | hv
    · exact .inr (h.copy _ rest rfl)
    · exact h.values hk v hv
  | interrupt => exact ⟨_, _, rfl, .settled rfl h.candidate h.results h.values⟩

/-! ## Flights and started frames -/

theorem ProduceMove.told {owned : List K} {settled : Dict K (Except (Error K) (ResolutionResult K V))}
    {p : ProducePhase K V} (hm : ProduceMove b s c owned settled p e m) (hn : owned.Nodup)
    (ha : Around b X s t c) (hspawn : ∀ g, m.spawn = some g → t.frame? s.frames.length = some g)
    (h : ProduceTold b X t c owned settled p) :
    ∃ settled' p', m.body = .produce owned settled' p' ∧ ProduceTold b X t c owned settled' p' := by
  cases hm with
  | start =>
    refine ⟨_, _, rfl, by simp, ?_, by simp, h.settled⟩
    rintro child ⟨⟩
    have hf := hspawn _ rfl
    refine ⟨c, owned, ⟨_, hf, rfl, rfl⟩, fun hk => ?_⟩
    have hloop := ha.started hf rfl hn hk
    rwa [(h.owned rfl hk).requiresRefresh] at hloop
  | @produced child outcome ho =>
    obtain ⟨cc, owned', hcalled, hchild⟩ := h.child child rfl
    refine ⟨_, _, rfl, by simp, by simp, fun rest resolved hp r hr => ?_, h.settled⟩
    have hok : outcome = .ok resolved := by
      cases outcome with
      | error err => cases hp
      | ok resolved' =>
        rw [ProducePhase.completing.injEq, produceOutcome] at hp
        split at hp
        · exact hp.2
        · cases hp.2
    subst hok
    obtain ⟨_, howned⟩ := ha.loops child resolved r ho hr
    exact ha.told ho hr (hchild (howned cc owned' hcalled))
  | @complete key rest outcome =>
    refine ⟨_, _, rfl, by simp, by simp, ?_, fun r hr => ?_⟩
    · rintro rest' resolved ⟨⟩ r hr
      exact h.outcome _ resolved rfl r hr
    · rcases Dict.get?_set_cases hr with ⟨rfl, hcompleted⟩ | hr
      · cases outcome with
        | error err => cases hcompleted
        | ok resolved =>
          rw [completion] at hcompleted
          cases hget : resolved.get? X.key with
          | none => rw [hget] at hcompleted; cases hcompleted
          | some r' =>
            rw [hget] at hcompleted
            cases hcompleted
            exact h.outcome _ resolved rfl r hget
      · exact h.settled r hr
  | completed => exact ⟨_, _, rfl, by simp, by simp, by simp, h.settled⟩

theorem produceTold_new {owned : List K} (h : X.key ∈ owned → Free X t c) :
    ProduceTold b X t c owned .empty .start :=
  ⟨fun _ => h, nofun, nofun, nofun⟩

theorem manyTold_new : ManyTold b X t c .new .start :=
  ⟨nofun, nofun, nofun, nofun, fun _ => rfl, fun _ => rfl, nofun, nofun, nofun, nofun⟩

/-- A scheduled refresh has a session of its own that forces nothing. -/
theorem schedule_free {key : K} {wanted : Bool} {g : Frame K V}
    (h : (s.schedule key wanted).2 = some g) :
    ((s.schedule key wanted).1.runtime s.runtimes.length).forceRefreshKeys = [] := by
  unfold State.schedule at h ⊢
  split
  · simp [Shared.runtime, ResolutionRuntime.new]
  · rename_i hw
    rw [if_neg hw] at h
    cases h

/-- What a frame that starts holds of the key. -/
theorem Move.spawn_told {body : Body K V} (hm : Move b s c body e m) (ht : t.toShared = m.shared)
    (hn : BodyWhole s.Called body) (ha : Around b X s t c)
    (hspawn : ∀ g, m.spawn = some g → t.frame? s.frames.length = some g)
    (h : FrameTold b X t i ⟨c, body⟩) :
    ∀ g, m.spawn = some g → FrameTold b X t s.frames.length g := by
  intro g hg
  have hf := hspawn g hg
  have hruntime : ∀ n, t.runtime n = m.shared.runtime n :=
    fun n => congrArg (fun shared => shared.runtime n) ht
  cases hm with
  | many hm =>
    cases hm with
    | delegate hd =>
      cases hg
      intro hk
      exact ⟨_, ha.started hf rfl ((pending_nodup hn.2.1 hn.1).filter _) hk⟩
    | hit =>
      have hfree := schedule_free hg
      rw [schedule_spawn hg]
      intro _ _ hforced
      rw [hruntime, hfree] at hforced
      cases hforced
    | @reserve shared =>
      obtain ⟨owned, _, howned, rfl⟩ := reserve_spawn_eq hg
      exact produceTold_new fun hk => h.sharing (howned _ hk).1
    | _ => cases hg
  | owned hm =>
    cases hm with
    | dispatch => cases hg; trivial
    | _ => cases hg
  | work hm =>
    cases hm with
    | depend => cases hg; exact manyTold_new
    | _ => cases hg
  | produce hm =>
    cases hm with
    | start =>
      cases hg
      intro hk
      exact ⟨_, ha.started hf rfl hn hk⟩
    | _ => cases hg
  | refresh hm =>
    cases hm with
    | reserve =>
      obtain ⟨owned, _, howned, rfl⟩ := reserve_spawn_eq hg
      refine produceTold_new fun hk => h rfl ?_
      exact (List.mem_singleton.mp (howned _ hk).1).symm
    | _ => cases hg

/-- What a frame that moves holds of the key. -/
theorem Move.told {body : Body K V} (hm : Move b s c body e m) (hn : BodyWhole s.Called body)
    (ha : Around b X s t c) (hspawn : ∀ g, m.spawn = some g → t.frame? s.frames.length = some g)
    (h : FrameTold b X t i ⟨c, body⟩) : FrameTold b X t i ⟨c, m.body⟩ := by
  cases hm with
  | many hm =>
    obtain ⟨l', p', hbody, hnext⟩ := hm.told hn.1 hn.2.1 ha hspawn h
    rw [hbody]
    exact hnext
  | owned hm => cases hm <;> exact h
  | work hm => cases hm <;> trivial
  | produce hm =>
    obtain ⟨settled', p', hbody, hnext⟩ := hm.told hn ha hspawn h
    rw [hbody]
    exact hnext
  | refresh hm => cases hm <;> nofun

/-! ## Every run -/

/-- What every reachable state has of the key. -/
structure KeyRun (b : Builder K V) (X : KeyInputs K V) (s : State K V) : Prop where
  now : s.now = X.now
  opened : RuntimesOpen s
  whole : s.Whole
  frames : ∀ i f, s.frame? i = some f → FrameTold b X s i f

theorem keyRun_initial (cache : AsyncMemoryCache K V) (revisions : List (Dict K ℕ)) :
    KeyRun b X (State.initial X.now cache revisions) := by
  have hnone : ∀ i f, (State.initial X.now cache revisions).frame? i = some f → False := by
    intro i f hf
    simp [State.frame?, State.initial] at hf
  exact ⟨rfl, fun i f hf => (hnone i f hf).elim, fun i f hf => (hnone i f hf).elim,
    fun i f hf => (hnone i f hf).elim⟩

/-- The loops and flights of a state, as the next state sees them. -/
theorem KeyRun.around (hranks : ∀ source ∈ b.sources,
      (b.authorityFor X.key).rankFor source.name = X.rank) (hl : X.Steady s l)
    (h : b.step s l = some t) (hs : KeyRun b X s) (ht : t.now = X.now)
    (hopen : c.runtime < s.runtimes.length) : Around b X s t c := by
  have hstep := step_cases h
  refine ⟨fun hf => hf.step hstep hopen, ht, lt_of_lt_of_le hopen hstep.runtimes_length,
    fun child resolved ho => hstep.ownedOutcome ho, ?_, ?_⟩
  · intro child resolved r ho hr
    obtain ⟨cc, keys, lo, hf, rfl⟩ := ownedOutcome_ok ho
    have hk : X.key ∈ keys :=
      (hs.whole child _ hf).2.1.owned X.key (.inl (Dict.mem_keys_of_get? hr))
    obtain ⟨forced, hloop⟩ := hs.frames child _ hf hk
    refine ⟨⟨forced, hloop.step hranks hl h⟩, fun cc' owned hcalled => ?_⟩
    obtain ⟨_, hcall⟩ := hcalled.unique (hstep.called ⟨_, hf, rfl, rfl⟩)
    rw [Body.call, Call.owned.injEq] at hcall
    rw [hcall]
    exact hk
  · intro q r hq
    unfold State.future at hq
    split at hq
    · rename_i cp owned settled p hf
      exact (((hs.frames q _ hf).settled r hq)).step hranks hl h
    · cases hq

theorem KeyRun.step (hranks : ∀ source ∈ b.sources,
      (b.authorityFor X.key).rankFor source.name = X.rank) (hl : X.Steady s l)
    (h : b.step s l = some t) (hs : KeyRun b X s) : KeyRun b X t := by
  have hstep := step_cases h
  have hnow : t.now = X.now := by
    rw [← hs.now]
    cases hstep with
    | run hf hm => exact hm.now
    | tick => exact (hl 0).clock _ rfl
    | _ => rfl
  refine ⟨hnow, hstep.runtimesOpen hs.opened, step_whole h hs.whole, fun i f hi => ?_⟩
  have hkept : ∀ {j g}, s.frame? j = some g → FrameTold b X t j g :=
    fun hg => (hs.frames _ _ hg).step hranks hl h (hs.opened _ _ hg)
  cases hstep.came hi with
  | moved hg hm ht hf =>
    subst hf
    have ha := hs.around hranks hl h hnow (hs.opened _ _ hg)
    refine hm.told (hs.whole _ _ hg) ha (fun g' hg' => ?_) (hkept hg)
    rw [ht]
    exact (frame?_apply_spawn _ hg).trans hg'
  | @started j e g m hg hm ht hlen hf =>
    have ha := hs.around hranks hl h hnow (hs.opened _ _ hg)
    rw [hlen]
    refine hm.spawn_told (by rw [ht]; rfl) (hs.whole _ _ hg) ha (fun g' hg' => ?_) (hkept hg) f hf
    rw [ht]
    exact (frame?_apply_spawn _ hg).trans hg'
  | called _ hf =>
    subst hf
    exact manyTold_new
  | stayed _ hf => exact hkept hf

/-! ## The cached candidate -/

def ManyPhase.afterRead : ManyPhase K V → Bool
  | .start | .reading _ _ => false
  | _ => true

/-- A lookup of a value past its time to live, observed at `found`, or of none. -/
structure Expired (found : Option ℚ) (lookup : CacheLookup K V) : Prop where
  fresh : lookup.fresh = false
  value : lookup.value.map SnapshotValue.observedAt = found
  usable : lookup.usableStale = lookup.value.isSome

/-- Where the cached value of `k` stands after the lookup: in the lookups, on its way to the caller
while it is refreshed, with the caller, or kept as the candidate of a key that goes to the sources. -/
inductive Tracked (b : Builder K V) (k : K) (found : Option ℚ) (lm : ManyLocals K V) :
    ManyPhase K V → Prop
  | waits {p : ManyPhase K V} {lookups : List (K × CacheLookup K V)} {lookup : CacheLookup K V}
      (hp : p = .isolating lookups ∨ p = .serving lookups ∨
        ∃ key copy, key ≠ k ∧ p = .copying key copy lookups)
      (hfind : Dict.find lookups k = some lookup) (hlookup : Expired found lookup)
      (hcandidate : lm.staleCandidates.get? k = none) : Tracked b k found lm p
  | copies {copy : SnapshotValue K V} {rest : List (K × CacheLookup K V)}
      (hcopy : some copy.observedAt = found)
      (hmode : (b.policyFor k).refreshMode = .staleWhileRevalidate) :
      Tracked b k found lm (.copying k copy rest)
  | served {p : ManyPhase K V} {v : SnapshotValue K V} (hp : p.afterRead = true)
      (hv : lm.values.get? k = some v) (hcopy : some v.observedAt = found)
      (hmode : (b.policyFor k).refreshMode = .staleWhileRevalidate) : Tracked b k found lm p
  | sent {p : ManyPhase K V} (hp : p.afterRead = true) (hk : k ∈ lm.pending)
      (hcandidate : (lm.staleCandidates.get? k).map SnapshotValue.observedAt = found) :
      Tracked b k found lm p

variable {k : K} {found : Option ℚ} {keys : List K} {lm : ManyLocals K V} {p : ManyPhase K V}

omit [DecidableEq K] in
theorem Expired.isolated {lookup : CacheLookup K V} (h : Expired found lookup) :
    Expired found (isolatedLookup b.copier lookup) := by
  obtain ⟨hfresh, hvalue, husable⟩ := h
  refine ⟨hfresh, ?_, ?_⟩
  · rw [← hvalue, isolatedLookup, Option.map_map]
    rfl
  · rw [isolatedLookup, Option.isSome_map]
    exact husable

/-- What becomes of an expired lookup, with the tests that the list of moves leaves out. -/
theorem moveMany_expired {key : K} {lookup : CacheLookup K V} {rest : List (K × CacheLookup K V)}
    (h : b.moveMany s c keys lm (.serving ((key, lookup) :: rest)) .go = some m)
    (hl : Expired found lookup) :
    (∃ value, lookup.value = some value ∧ (b.policyFor key).refreshMode = .staleWhileRevalidate ∧
      m.body = .resolveMany keys lm (.copying key (b.cachedCopy s.now true value) rest)) ∨
    m.body = .resolveMany keys
      { lm with
        pending := lm.pending ++ [key]
        staleCandidates := lookup.value.elim lm.staleCandidates (lm.staleCandidates.set key) }
      (.serving rest) := by
  unfold Builder.moveMany at h
  dsimp only at h
  have husable := hl.usable
  split at h
  · rename_i hnone
    cases h
    right
    rw [hnone]
    rfl
  · rename_i value hsome
    rw [hsome, Option.isSome_some] at husable
    rw [hl.fresh, husable] at h
    simp only [Bool.false_eq_true, if_false, Bool.true_and, if_true] at h
    split at h
    · rename_i hmode
      cases h
      exact .inl ⟨value, hsome, of_decide_eq_true hmode, rfl⟩
    · cases h
      right
      rw [hsome]
      rfl

/-- The move of an expired lookup sends the key on or keeps its value. -/
theorem Tracked.decide {lookup : CacheLookup K V} {rest : List (K × CacheLookup K V)}
    (hm : b.moveMany s c keys lm (.serving ((k, lookup) :: rest)) .go = some m)
    (hl : Expired found lookup) (hcandidate : lm.staleCandidates.get? k = none) :
    ∃ l' p', m.body = .resolveMany keys l' p' ∧ Tracked b k found l' p' := by
  rcases moveMany_expired hm hl with ⟨value, hvalue, hmode, hbody⟩ | hbody
  · refine ⟨_, _, hbody, .copies ?_ hmode⟩
    rw [← hl.value, hvalue]
    rfl
  · refine ⟨_, _, hbody, .sent rfl (List.mem_append_right _ (List.mem_singleton_self k)) ?_⟩
    rw [← hl.value]
    cases lookup.value with
    | none => exact congrArg _ hcandidate
    | some value => exact congrArg _ (Dict.get?_set_self _ _ _)

/-- A key that has its value is not among the undecided ones, so no move decides it again. -/
theorem Tracked.served_set {p' : ManyPhase K V} {v copy : SnapshotValue K V} {key : K}
    (hw : ManyWhole keys lm p) (hn : keys.Nodup) (hp : ∀ err, p ≠ .raised err)
    (hkey : key ∈ p.undecided keys lm) (hp' : p'.afterRead = true)
    (hv : lm.values.get? k = some v) (hcopy : some v.observedAt = found)
    (hmode : (b.policyFor k).refreshMode = .staleWhileRevalidate) :
    Tracked b k found { lm with values := lm.values.set key copy } p' := by
  have hne : k ≠ key := by
    rintro rfl
    rw [hw.not_mem_values hn hp hkey] at hv
    cases hv
  exact .served hp' ((Dict.get?_set_ne _ _ hne).trans hv) hcopy hmode

/-- Once every lookup is decided, a move that leaves the locals keeps what the key has. -/
theorem Tracked.keep {l' : ManyLocals K V} {p' : ManyPhase K V} (h : Tracked b k found lm p)
    (hp : p.lookedUp = []) (hp' : p'.afterRead = true) (hpending : l'.pending = lm.pending)
    (hcandidates : l'.staleCandidates = lm.staleCandidates) (hvalues : l'.values = lm.values) :
    Tracked b k found l' p' := by
  cases h with
  | @waits _ lookups lookup hwaits hfind =>
    have hmem : k ∈ lookups.map Prod.fst := by
      by_contra hnot
      rw [Dict.find_eq_none.mpr hnot] at hfind
      cases hfind
    exfalso
    rcases hwaits with rfl | rfl | ⟨key, copy, _, rfl⟩
    · rw [show lookups.map Prod.fst = [] from hp] at hmem
      cases hmem
    · rw [show lookups.map Prod.fst = [] from hp] at hmem
      cases hmem
    · cases hp
  | copies => cases hp
  | served _ hv hcopy hmode => exact .served hp' (by rw [hvalues]; exact hv) hcopy hmode
  | sent _ hk hc =>
    exact .sent hp' (by rw [hpending]; exact hk) (by rw [hcandidates]; exact hc)

theorem Tracked.step (hm : b.moveMany s c keys lm p e = some m) (hn : keys.Nodup)
    (hw : ManyWhole keys lm p) (h : Tracked b k found lm p) :
    ∃ l' p', m.body = .resolveMany keys l' p' ∧ ((∃ err, p' = .raised err) ∨
      Tracked b k found l' p') := by
  cases moveMany_cases hm with
  | start =>
    cases h with
    | waits hp => rcases hp with hp | hp | ⟨_, _, _, hp⟩ <;> cases hp
    | served hp => cases hp
    | sent hp => cases hp
  | read =>
    cases h with
    | waits hp => rcases hp with hp | hp | ⟨_, _, _, hp⟩ <;> cases hp
    | served hp => cases hp
    | sent hp => cases hp
  | @isolate lookups =>
    refine ⟨_, _, rfl, .inr ?_⟩
    cases h with
    | @waits _ _ lookup hp hfind hlookup hcandidate =>
      rcases hp with hp | hp | ⟨_, _, _, hp⟩
      · cases hp
        have hmapped : Dict.find (lookups.map fun e => (e.1, isolatedLookup b.copier e.2)) k =
            some (isolatedLookup b.copier lookup) := by
          rw [Dict.find_map_values, hfind]
          rfl
        exact .waits (.inr (.inl rfl)) hmapped hlookup.isolated hcandidate
      · cases hp
      · cases hp
    | served _ hv hcopy hmode => exact .served rfl hv hcopy hmode
    | sent _ hk hc => exact .sent rfl hk hc
  | served => exact ⟨_, _, rfl, .inr (h.keep rfl rfl rfl rfl rfl)⟩
  | share => exact ⟨_, _, rfl, .inr (h.keep rfl rfl rfl rfl rfl)⟩
  | delegate => exact ⟨_, _, rfl, .inr (h.keep rfl rfl rfl rfl rfl)⟩
  | @hit key lookup rest value stale wanted hv hs =>
    cases h with
    | waits hp hfind hlookup hcandidate =>
      rcases hp with hp | hp | ⟨_, _, _, hp⟩
      · cases hp
      · cases hp
        rw [Dict.find] at hfind
        split at hfind
        · rename_i heq
          cases hfind
          subst heq
          obtain ⟨l', p', hbody, hnext⟩ := Tracked.decide hm hlookup hcandidate
          exact ⟨l', p', hbody, .inr hnext⟩
        · rename_i hne
          exact ⟨_, _, rfl, .inr (.waits (.inr (.inr ⟨_, _, hne, rfl⟩)) hfind hlookup hcandidate)⟩
      · cases hp
    | served _ hv hcopy hmode => exact ⟨_, _, rfl, .inr (.served rfl hv hcopy hmode)⟩
    | sent _ hk hc => exact ⟨_, _, rfl, .inr (.sent rfl hk hc)⟩
  | @miss key lookup rest =>
    cases h with
    | waits hp hfind hlookup hcandidate =>
      rcases hp with hp | hp | ⟨_, _, _, hp⟩
      · cases hp
      · cases hp
        rw [Dict.find] at hfind
        split at hfind
        · rename_i heq
          cases hfind
          subst heq
          obtain ⟨l', p', hbody, hnext⟩ := Tracked.decide hm hlookup hcandidate
          exact ⟨l', p', hbody, .inr hnext⟩
        · exact ⟨_, _, rfl, .inr (.waits (.inr (.inl rfl)) hfind hlookup hcandidate)⟩
      · cases hp
    | served _ hv hcopy hmode => exact ⟨_, _, rfl, .inr (.served rfl hv hcopy hmode)⟩
    | sent _ hk hc =>
      exact ⟨_, _, rfl, .inr (.sent rfl (List.mem_append_left _ hk) hc)⟩
  | @missStale key lookup rest value hv hf hu =>
    cases h with
    | waits hp hfind hlookup hcandidate =>
      rcases hp with hp | hp | ⟨_, _, _, hp⟩
      · cases hp
      · cases hp
        rw [Dict.find] at hfind
        split at hfind
        · rename_i heq
          cases hfind
          subst heq
          obtain ⟨l', p', hbody, hnext⟩ := Tracked.decide hm hlookup hcandidate
          exact ⟨l', p', hbody, .inr hnext⟩
        · rename_i hne
          refine ⟨_, _, rfl, .inr (.waits (.inr (.inl rfl)) hfind hlookup ?_)⟩
          exact (Dict.get?_set_ne _ _ (Ne.symm hne)).trans hcandidate
      · cases hp
    | served _ hv hcopy hmode => exact ⟨_, _, rfl, .inr (.served rfl hv hcopy hmode)⟩
    | sent _ hk hc =>
      have hdistinct : (lm.pending ++ key :: rest.map Prod.fst).Nodup :=
        (List.nodup_append.mp ((hw (by simp)).nodup_iff.mpr hn)).2.1
      have hne : k ≠ key := (List.nodup_append.mp hdistinct).2.2 _ hk _ List.mem_cons_self
      refine ⟨_, _, rfl, .inr (.sent rfl (List.mem_append_left _ hk) ?_)⟩
      rw [← hc]
      exact congrArg _ (Dict.get?_set_ne _ _ hne)
  | @install key copy rest =>
    refine ⟨_, _, rfl, .inr ?_⟩
    cases h with
    | waits hp hfind hlookup hcandidate =>
      rcases hp with hp | hp | ⟨_, _, _, hp⟩
      · cases hp
      · cases hp
      · cases hp
        exact .waits (.inr (.inl rfl)) hfind hlookup hcandidate
    | copies hcopy hmode => exact .served rfl (Dict.get?_set_self _ _ _) hcopy hmode
    | served _ hv hcopy hmode =>
      exact Tracked.served_set hw hn (by simp) (List.mem_append_right _ List.mem_cons_self) rfl hv hcopy
        hmode
    | sent _ hk hc => exact .sent rfl hk hc
  | delegated =>
    refine ⟨_, _, rfl, .inr (h.keep rfl ?_ rfl rfl rfl)⟩
    split <;> rfl
  | delegateRaised => exact ⟨_, _, rfl, .inl ⟨_, rfl⟩⟩
  | reserve => exact ⟨_, _, rfl, .inr (h.keep rfl rfl rfl rfl rfl)⟩
  | joined => exact ⟨_, _, rfl, .inr (h.keep rfl rfl rfl rfl rfl)⟩
  | joinRaised => exact ⟨_, _, rfl, .inl ⟨_, rfl⟩⟩
  | collected => exact ⟨_, _, rfl, .inr (h.keep rfl rfl rfl rfl rfl)⟩
  | collectMissing => exact ⟨_, _, rfl, .inl ⟨_, rfl⟩⟩
  | @collectValue key rest value =>
    refine ⟨_, _, rfl, .inr ?_⟩
    cases h with
    | waits hp => rcases hp with hp | hp | ⟨_, _, _, hp⟩ <;> cases hp
    | served _ hv hcopy hmode =>
      exact Tracked.served_set hw hn (by simp) List.mem_cons_self rfl hv hcopy hmode
    | sent _ hk hc => exact .sent rfl hk hc
  | collectError => exact ⟨_, _, rfl, .inr (h.keep rfl rfl rfl rfl rfl)⟩
  | collectStale => exact ⟨_, _, rfl, .inr (h.keep rfl rfl rfl rfl rfl)⟩
  | @fallBack key copy rest =>
    refine ⟨_, _, rfl, .inr ?_⟩
    cases h with
    | waits hp => rcases hp with hp | hp | ⟨_, _, _, hp⟩ <;> cases hp
    | served _ hv hcopy hmode =>
      exact Tracked.served_set hw hn (by simp) List.mem_cons_self rfl hv hcopy hmode
    | sent _ hk hc => exact .sent rfl hk hc
  | interrupt => exact ⟨_, _, rfl, .inl ⟨_, rfl⟩⟩

/-- Call `j` keeps track of the cached value, unless it has raised. -/
def TrackedAt (b : Builder K V) (k : K) (found : Option ℚ) (j : ℕ) (s : State K V) : Prop :=
  ∃ c keys lm p, s.frame? j = some ⟨c, .resolveMany keys lm p⟩ ∧
    ((∃ err, p = .raised err) ∨ Tracked b k found lm p)

theorem TrackedAt.step {j : ℕ} (h : b.step s l = some t) (hw : s.Whole)
    (hs : TrackedAt b k found j s) : TrackedAt b k found j t := by
  obtain ⟨c, keys, lm, p, hf, hloop⟩ := hs
  have hstep := step_cases h
  by_cases hrun : ∃ e, l = .run j e
  · obtain ⟨e, rfl⟩ := hrun
    obtain ⟨g, m, hg, hm, rfl⟩ := step_run.mp h
    rw [hf, Option.some.injEq] at hg
    subst hg
    have hmove : b.moveMany s c keys lm p e = some m := hm
    rcases hloop with ⟨err, rfl⟩ | htracked
    · cases moveMany_cases hmove with
      | interrupt hp => cases hp
    · obtain ⟨hn, hwhole, _⟩ := hw j _ hf
      obtain ⟨l', p', hbody, hnext⟩ := htracked.step hmove hn hwhole
      refine ⟨c, keys, l', p', ?_, hnext⟩
      rw [frame?_apply_self m hf, hbody]
  · refine ⟨c, keys, lm, p, ?_, hloop⟩
    cases hstep with
    | @run i e g m hg hm =>
      exact frame?_apply_other m hg hf fun hij => hrun ⟨e, by rw [hij]⟩
    | call => exact frame?_append hf
    | _ => exact hf

/-! ## The newest candidate -/

variable {v : SnapshotValue K V}

omit [DecidableEq K] in
/-- Without a fresh answer a chain that has a value has the newest tolerated stale one. -/
theorem chain_newest {q : Inquiry K V} {allowed : Bool}
    (hfresh : b.sources.findSome? (b.freshFrom q) = none)
    (h : unversionedResult (.ok v) = b.chain q allowed b.sources) :
    v.unversioned ∈ b.sources.filterMap (b.staleFrom q) ∧
      ∀ x ∈ b.sources.filterMap (b.staleFrom q), x.observedAt ≤ v.observedAt := by
  unfold Builder.chain at h
  rw [hfresh] at h
  dsimp only at h
  cases allowed with
  | false => cases h
  | true =>
    rw [if_pos rfl] at h
    split at h
    · rename_i best hbest
      have hv : v.unversioned = best := Except.ok.inj h
      rw [← hv] at hbest
      refine ⟨List.argmax_mem hbest, fun x hx => ?_⟩
      exact (List.le_of_mem_argmax hx hbest : x.observedAt ≤ v.unversioned.observedAt)
    · cases h

omit [DecidableEq K] in
/-- Without a fresh answer a chain that may fall back and fails has no tolerated stale answer. -/
theorem chain_failed {q : Inquiry K V} {err : Error K}
    (hfresh : b.sources.findSome? (b.freshFrom q) = none)
    (h : unversionedResult (.error err) = b.chain q true b.sources) :
    b.sources.filterMap (b.staleFrom q) = [] := by
  unfold Builder.chain at h
  rw [hfresh] at h
  dsimp only at h
  rw [if_pos rfl] at h
  split at h
  · cases h
  · exact List.argmax_eq_none.mp ‹_›

omit [DecidableEq K] in
theorem freshFrom_none {q : Inquiry K V} {sources : List (Source K)}
    (h : ∀ source ∈ sources, ∀ v versions,
      b.harvest q.now 0 source q.key (q.answer source) ≠ .fresh v versions) :
    sources.findSome? (b.freshFrom q) = none := by
  rw [List.findSome?_eq_none_iff]
  intro source hsource
  unfold Builder.freshFrom
  split
  · rename_i v versions hturn
    unfold Builder.turn at hturn
    split at hturn
    · cases hturn
    · split at hturn
      · cases hturn
      · cases hturn
      · exact absurd (Option.some.inj hturn) (h source hsource v versions)
  · rfl

omit [DecidableEq K] in
/-- What a call returns for a key that has a chain: the newest stale answer, or the cached candidate
when there is none. -/
theorem fallback_iff {stales : List (SnapshotValue K V)} {found : Option (SnapshotValue K V)}
    (h : (v.unversioned ∈ stales ∧ ∀ x ∈ stales, x.observedAt ≤ v.observedAt) ∨
      stales = [] ∧ found.map SnapshotValue.observedAt = some v.observedAt) :
    (∀ w, found = some w ∨ w ∈ stales → w.observedAt ≤ v.observedAt) ↔
      (stales ≠ [] → ∀ w, found = some w → ∃ x ∈ stales, w.observedAt ≤ x.observedAt) := by
  rcases h with ⟨hmem, hnewest⟩ | ⟨hnil, hfound⟩
  · constructor
    · intro hall _ w hw
      exact ⟨_, hmem, hall w (.inl hw)⟩
    · rintro hcached w (hw | hw)
      · obtain ⟨x, hx, hle⟩ := hcached (List.ne_nil_of_mem hmem) w hw
        exact hle.trans (hnewest x hx)
      · exact hnewest w hw
  · refine iff_of_true ?_ fun hne => absurd hnil hne
    rintro w (hw | hw)
    · rw [hw, Option.map_some, Option.some.injEq] at hfound
      exact hfound.le
    · rw [hnil] at hw
      cases hw

/-- The result of a loop of the key, by the answers that it got. -/
theorem Told.result {r : ResolutionResult K V} (h : Told b X s forced r)
    (hanswers : ∀ i, ∀ source ∈ b.sources, ∀ v versions,
      b.harvest X.now 0 source X.key (X.answer i source) ≠ .fresh v versions)
    (hallow : (b.policyFor X.key).allowStaleOnError = true) :
    ∃ i c owned lo, s.frame? i = some ⟨c, .resolveOwned owned lo .done⟩ ∧
      lo.resolved.get? X.key = some r ∧
      ((∃ v, r = .ok v ∧ X.memo v) ∨
        (∀ v, r = .ok v → v.unversioned ∈ X.staleAnswers b i (s.runtime c.runtime) ∧
          ∀ x ∈ X.staleAnswers b i (s.runtime c.runtime), x.observedAt ≤ v.observedAt) ∧
        (∀ err, r = .error err → forced = false →
          X.staleAnswers b i (s.runtime c.runtime) = [])) := by
  obtain ⟨i, resolved, ⟨c, keys, r₀, hk, hforced, hrun⟩, ho, hr⟩ := h
  obtain ⟨c', keys', lo, hf, rfl⟩ := ownedOutcome_ok ho
  obtain ⟨lo', p, hf', hloop⟩ := hrun.loop
  rw [hf, Option.some.injEq, Frame.mk.injEq, Body.resolveOwned.injEq] at hf'
  obtain ⟨rfl, rfl, rfl, rfl⟩ := hf'
  refine ⟨i, c', keys', lo, hf, hr, ?_⟩
  -- the exclusions of the session have not changed since the loop started
  have hinquiry : X.inquiry i (s.runtime c'.runtime) = X.inquiry i r₀ := by
    rw [KeyInputs.inquiry, KeyInputs.inquiry, Inquiry.mk.injEq]
    refine ⟨rfl, rfl, ?_, rfl⟩
    funext name
    rw [ResolutionRuntime.sourceIsExcluded, ResolutionRuntime.sourceIsExcluded,
      hrun.session.excluded]
  unfold KeyInputs.staleAnswers
  rw [hinquiry]
  have hfresh : b.sources.findSome? (b.freshFrom (X.inquiry i r₀)) = none :=
    freshFrom_none (hanswers i)
  have hdone : ChainAnswered b (X.inquiry i r₀)
      ((b.policyFor X.key).allowStaleOnError && !r₀.requiresRefresh X.key) X.memo lo := by
    rcases hloop with ⟨err, herr⟩ | hchain
    · cases herr
    · rcases hchain.progress with ⟨_, _, hwaits, _⟩ | hdone
      · cases hwaits
      · exact hdone
  obtain ⟨r', hr', hchain⟩ := hdone
  rw [show lo.resolved.get? X.key = some r' from hr', Option.some.injEq] at hr
  subst hr
  rcases hchain with hchain | ⟨v, hmemo, rfl | hchain⟩
  · refine .inr ⟨?_, ?_⟩
    · rintro v rfl
      exact chain_newest hfresh hchain
    · rintro err rfl rfl
      rw [hallow, hforced] at hchain
      exact chain_failed hfresh hchain
  · exact .inl ⟨v, rfl, hmemo⟩
  · refine .inr ⟨?_, ?_⟩
    · rintro v rfl
      exact chain_newest hfresh hchain
    · rintro err rfl _
      rw [show (b.policyFor (X.inquiry i r₀).key).allowStaleOnError = true from hallow] at hchain
      exact chain_failed hfresh hchain

end
/-! ## A cached value and a stale answer -/

/-- Key 0 is in the cache, observed at this time. -/
def agedSince (at_ : ℚ) : State ℕ ℕ :=
  .initial 0 (pairedSources.setMany (.new none AsyncMemoryCache.unlimited) [{ agedValue with observedAt := at_ }]).2
    [.empty]

def lateInputs : KeyInputs ℕ ℕ := ⟨0, 0, fun _ => lateAnswer, fun _ => False, 0⟩

/-- A call for key 0, up to its lookup, and from there to its end. -/
def untilLookup : List (Label ℕ ℕ) :=
  [.openRuntime .new, .call 0 none [0]] ++ turns [(0, 1)]

def afterLookup : List (Label ℕ ℕ) :=
  turns [(0, 4), (1, 1)] ++ lateAnswers 2 8 ++ turns [(1, 2), (0, 3)]

/-- A check for `KeyInputs.Steady`. -/
def lateSteady (s : State ℕ ℕ) (l : Label ℕ ℕ) : Bool :=
  (List.range (s.frames.length + 1)).all fun i => steady i 0 lateAnswer (fun _ => false) 0 s l

theorem lateSteady_of_check {s : State ℕ ℕ} {l : Label ℕ ℕ} (h : lateSteady s l = true) :
    lateInputs.Steady s l := by
  have hall : ∀ i < s.frames.length + 1, Steady i 0 lateAnswer (fun _ => False) 0 s l := by
    intro i hi
    have hcheck := List.all_eq_true.mp h i (List.mem_range.mpr hi)
    simpa only [Bool.false_eq_true] using steady_of_check hcheck
  intro i
  rcases Nat.lt_or_ge i (s.frames.length + 1) with hi | hi
  · exact hall i hi
  · have hlast := hall s.frames.length (Nat.lt_succ_self _)
    have hnone : s.frame? i = none := List.getElem?_eq_none (by omega)
    refine ⟨hlast.clock, fun c keys lo p v hf => ?_, fun c keys lo source sources attempts rest fresh
      a hf => ?_, hlast.ranks⟩
    · rw [hnone] at hf
      cases hf
    · rw [hnone] at hf
      cases hf

/-- The observation times of the value that the lookup of key 0 finds and of the one that a finished
call returns for it. -/
def State.foundAt (s : State ℕ ℕ) : Option ℚ :=
  (Dict.find (s.cache.getMany 0 pairedSources.policyFor [0]).1 0).bind fun lookup =>
    if lookup.fresh then none else lookup.value.map SnapshotValue.observedAt

def State.returnedAt (s : State ℕ ℕ) (i : ℕ) : Option ℚ :=
  (s.manyOutcome i).bind fun outcome => outcome.toOption.bind fun dicts =>
    (dicts.1.get? 0).map SnapshotValue.observedAt

theorem foundAt_some {s : State ℕ ℕ} {at_ : ℚ} (h : s.foundAt = some at_) : ∃ lookup w,
    Dict.find (s.cache.getMany 0 pairedSources.policyFor [0]).1 0 = some lookup ∧
      lookup.fresh = false ∧ lookup.value = some w ∧ w.observedAt = at_ := by
  obtain ⟨lookup, hlookup, h⟩ := Option.bind_eq_some_iff.mp h
  split at h
  · cases h
  · rename_i hfresh
    obtain ⟨w, hw, hat⟩ := Option.map_eq_some_iff.mp h
    exact ⟨lookup, w, hlookup, by simpa using hfresh, hw, hat⟩

theorem returnedAt_some {s : State ℕ ℕ} {i : ℕ} {at_ : ℚ} (h : s.returnedAt i = some at_) :
    ∃ values errors v, s.manyOutcome i = some (.ok (values, errors)) ∧ values.get? 0 = some v ∧
      v.observedAt = at_ := by
  obtain ⟨outcome, houtcome, h⟩ := Option.bind_eq_some_iff.mp h
  obtain ⟨⟨values, errors⟩, hok, h⟩ := Option.bind_eq_some_iff.mp h
  obtain ⟨v, hv, hat⟩ := Option.map_eq_some_iff.mp h
  cases outcome with
  | error err => cases hok
  | ok dicts =>
    cases hok
    exact ⟨values, errors, v, houtcome, hv, hat⟩

/-- A run of `untilLookup` and `afterLookup` whose checks pass. -/
theorem late_call {at_ found returned : ℚ}
    (h : ((execOf pairedSources.step lateSteady (agedSince at_) untilLookup).bind fun s₁ =>
      (execOf pairedSources.step lateSteady s₁ (.run 0 .go :: afterLookup)).map fun t =>
        (s₁.foundAt, t.returnedAt 0)) = some (some found, some returned)) :
    ∃ (s₁ t : State ℕ ℕ) (lookup : CacheLookup ℕ ℕ) (w : SnapshotValue ℕ ℕ)
      (values : Dict ℕ (SnapshotValue ℕ ℕ)) (errors : Dict ℕ (Error ℕ)) (v : SnapshotValue ℕ ℕ),
      execOf pairedSources.step lateSteady (agedSince at_) untilLookup = some s₁ ∧
      RunOf pairedSources.step lateInputs.Steady (agedSince at_) untilLookup s₁ ∧
      RunOf pairedSources.step lateInputs.Steady s₁ (.run 0 .go :: afterLookup) t ∧
      Dict.find (s₁.cache.getMany 0 pairedSources.policyFor [0]).1 0 = some lookup ∧
      lookup.fresh = false ∧ lookup.value = some w ∧ w.observedAt = found ∧
      t.manyOutcome 0 = some (.ok (values, errors)) ∧ values.get? 0 = some v ∧
      v.observedAt = returned := by
  obtain ⟨s₁, hs₁, h⟩ := Option.bind_eq_some_iff.mp h
  obtain ⟨t, ht, h⟩ := Option.map_eq_some_iff.mp h
  obtain ⟨hfound, hreturned⟩ := Prod.mk.inj h
  obtain ⟨lookup, w, hlookup, hfresh, hw, hwat⟩ := foundAt_some hfound
  obtain ⟨values, errors, v, houtcome, hv, hvat⟩ := returnedAt_some hreturned
  exact ⟨s₁, t, lookup, w, values, errors, v, hs₁,
    (execOf_run hs₁).mono fun _ _ => lateSteady_of_check,
    (execOf_run ht).mono fun _ _ => lateSteady_of_check, hlookup, hfresh, hw, hwat, houtcome, hv, hvat⟩

end Coalestra
