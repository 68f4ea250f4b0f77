import Coalestra.Orchestration.LaterCalls

/-! # Invalidation as a barrier

`publisher.invalidate` takes a key out of the cache and tells nobody. A source call under way may
still write its value into the empty place, and a later build may still join its flight. Where
neither happens, a build that starts after the invalidation delivers values of later source calls
only. -/

namespace Coalestra
set_option autoImplicit false
set_option maxHeartbeats 250000

section
variable {K V : Type} [DecidableEq K]

/-- Nobody else puts a value of `key` into the cache. -/
def NotPublished (key : K) (T : Traced K V) (l : Label K V) : Prop :=
  ∀ cache, l = .external cache → ∀ v, cache.get? key = some v → T.cache.get? key = some v

/-- Nothing from before the invalidation is written back into the cache. -/
structure NoWriteBack (T₀ : Traced K V) (key : K) (T : Traced K V) (l : Label K V) : Prop where
  published : NotPublished key T l
  writes : ∀ i f v, l = .run i .go → T.frame? i = some f → v ∈ f.body.writing → v.key = key →
    T.Since T₀ v.version

/-- Nor does it reach runtime `r` through a flight: `r` joins untouched flights for `key`, and while
it waits their source loops do not find an old value in the memo of their session. -/
structure NoJoinBack (T₀ : Traced K V) (key : K) (r : ℕ) (T : Traced K V) (l : Label K V) : Prop
    extends NoWriteBack T₀ key T l where
  joins : ∀ i f q, l = .run i .go → T.frame? i = some f → f.scope.runtime = r →
    key ∈ f.body.reserving → T.tasks.get? key = some q → T.FlightUntouched T₀ key q
  visits : ∀ i c keys lo sources q v, l = .run i .go →
    T.frame? i = some ⟨c, .resolveOwned keys lo (.visiting sources)⟩ → T.AwaitedBy r key q →
    T.Runs q i → (T.runtime c.runtime).pinned key = some v → T.Since T₀ v.version

variable {b : Builder K V} {T T₀ U : Traced K V} {l : Label K V} {key : K} {r : ℕ}

/-! ## The barrier -/

/-- What every state satisfies since runtime `r` was opened behind the invalidation. -/
structure Behind (b : Builder K V) (T₀ : Traced K V) (key : K) (r : ℕ) (T : Traced K V) : Prop where
  recorded : Recorded T
  shape : Shape b T.toState
  later : T₀.frames.length ≤ T.frames.length
  opened : r < T.runtimes.length
  cache : ∀ v, T.cache.get? key = some v → T.Since T₀ v.version
  memo : ∀ v, (T.runtime r).memo.get? key = some v → T.Since T₀ v.version
  frames : ∀ i f, T.frame? i = some f → f.scope.runtime = r → T.Untouched T₀ key i
  flights : ∀ q, T.AwaitedBy r key q → T.FlightUntouched T₀ key q

theorem Behind.watching (hT : Behind b T₀ key r T) : Watching b T₀ key r T :=
  ⟨hT.recorded, hT.shape, hT.later, hT.opened, hT.memo, hT.frames, hT.flights⟩

/-- Behind the removal the cache hands out nothing older. -/
theorem NoJoinBack.takesSince (hl : NoJoinBack T₀ key r T l)
    (hcache : ∀ v, T.cache.get? key = some v → T.Since T₀ v.version) :
    TakesSince T₀ key r T l :=
  ⟨⟨hl.joins, hl.visits, fun _ _ _ _ _ _ _ w _ _ _ _ _ hw _ => hcache w hw⟩,
    fun _ _ _ _ _ _ v _ _ _ _ hv => hcache v hv⟩

/-- The cache holds values of later source calls as long as nothing is written back. -/
theorem cache_since (hr : Recorded T) (hl : NoWriteBack T₀ key T l)
    (h : b.tracedStep T l = some U) (hT : ∀ v, T.cache.get? key = some v → T.Since T₀ v.version) :
    ∀ v, U.cache.get? key = some v → U.Since T₀ v.version := by
  intro w hw
  rcases (tracedStep_stepped h).cache_cases hw with hold | ⟨i, f, v, hrun, hf, hv, hk, hversion⟩ |
    ⟨cache, hext, hput⟩
  · exact (hT w hold).step hr h
  · rw [← hversion]
    exact (hl.writes i f v hrun hf hv hk).step hr h
  · exact (hT w (hl.published cache hext w hput)).step hr h

theorem Behind.step (hT : Behind b T₀ key r T) (hl : NoJoinBack T₀ key r T l)
    (h : b.tracedStep T l = some U) : Behind b T₀ key r U := by
  have hU := hT.watching.step (hl.takesSince hT.cache) h
  exact ⟨hU.recorded, hU.shape, hU.later, hU.opened,
    cache_since hT.recorded hl.toNoWriteBack h hT.cache, hU.memo, hU.frames, hU.flights⟩

/-! ## Runs -/

/-- Behind the removal the cache holds nothing of the key. -/
theorem removed_since {keys : List K} (hkey : key ∈ keys)
    (h : b.tracedStep T (.external (T.cache.invalidateMany keys)) = some U) :
    ∀ v, U.cache.get? key = some v → U.Since T₀ v.version := by
  intro v hv
  have hU : { T.toState with cache := T.cache.invalidateMany keys } = U.toState :=
    Option.some.inj (tracedStep_step h)
  have hcache : U.cache = T.cache.invalidateMany keys := congrArg (fun s => s.cache) hU.symm
  rw [hcache] at hv
  change (T.cache.entries.keep _).get? key = some v at hv
  rw [CacheEntries.get?_keep, if_neg (by simp [hkey])] at hv
  cases hv

/-- A session that is opened behind the removal starts behind it. -/
theorem behind_open (hr : Recorded T) (hs : Shape b T.toState) (hopen : RuntimesOpen T.toState)
    (hlater : T₀.frames.length ≤ T.frames.length)
    (hcache : ∀ v, T.cache.get? key = some v → T.Since T₀ v.version)
    (h : b.tracedStep T (.openRuntime .new) = some U) :
    Behind b T₀ key T.runtimes.length U := by
  have hnew : NoWriteBack T₀ key T (.openRuntime .new) := by
    refine ⟨?_, ?_⟩
    · intro cache hext
      cases hext
    · intro i f v hrun
      cases hrun
  have hempty : ∀ v, (.new : ResolutionRuntime K V).memo.get? key = some v →
      T.Since T₀ v.version := by
    intro v hv
    cases hv
  obtain ⟨-, hU⟩ := watching_open hr hs hopen hlater hempty h
  exact ⟨hU.recorded, hU.shape, hU.later, hU.opened, cache_since hr hnew h hcache, hU.memo,
    hU.frames, hU.flights⟩

/-- An invalidation is a barrier as long as nothing is carried around it. Let `invalidate` begin in
any reachable state `T₀` and remove the key at some later point, and let a session be opened once
it has returned. If since the removal nobody publishes the key, no coroutine writes back a value of
a source call that had begun before, and the session joins no flight that such a value can still
reach, then every value of the key that the session's builds deliver comes from a source call that
had not begun when the invalidation did. -/
theorem invalidation_barrier (b : Builder K V) {now : ℚ} {cache : AsyncMemoryCache K V}
    {revisions : List (Dict K ℕ)} {ls₀ ls₁ ls₂ ls₃ : List (Label K V)}
    {T₀ T₁ T₂ T₃ T₄ T : Traced K V} {key : K} {keys : List K}
    (hbegin : Run b.tracedStep (.initial now cache revisions) ls₀ T₀)
    (hwaits : Run b.tracedStep T₀ ls₁ T₁) (hkey : key ∈ keys)
    (hremoves : b.tracedStep T₁ (.external (T₁.cache.invalidateMany keys)) = some T₂)
    (hreturns : RunOf b.tracedStep (NoWriteBack T₀ key) T₂ ls₂ T₃)
    (hopen : b.tracedStep T₃ (.openRuntime .new) = some T₄)
    (hbuild : RunOf b.tracedStep (NoJoinBack T₀ key T₃.runtimes.length) T₄ ls₃ T) :
    T.DeliversSince T₀ key T₃.runtimes.length := by
  -- Up to the removal: the record is complete.
  have hrun₁ : Run b.tracedStep (.initial now cache revisions) (ls₀ ++ ls₁) T₁ :=
    hbegin.append hwaits
  have hinv₁ := hrun₁.invariant
    (fun U => Recorded U ∧ Shape b U.toState ∧ RuntimesOpen U.toState)
    (fun _ _ _ _ hU h => ⟨hU.1.step h, (tracedStep_stepped h).shape hU.2.1,
      (tracedStep_stepped h).runtimesOpen hU.2.2⟩)
    ⟨recorded_initial now cache revisions, shape_initial b now cache revisions, by
      intro i f hf
      simp [Traced.initial, State.initial, State.frame?] at hf⟩
  have hlater₁ : T₀.frames.length ≤ T₁.frames.length :=
    hwaits.related (fun U W => U.frames.length ≤ W.frames.length) (fun _ => le_rfl)
      (fun h h' => le_trans h h') (fun _ _ _ _ h => (tracedStep_stepped h).frames_length)
  -- From the removal on: the cache holds later values.
  have hinv₂ : Recorded T₂ ∧ Shape b T₂.toState ∧ RuntimesOpen T₂.toState ∧
      T₀.frames.length ≤ T₂.frames.length ∧
      ∀ v, T₂.cache.get? key = some v → T₂.Since T₀ v.version :=
    ⟨hinv₁.1.step hremoves, (tracedStep_stepped hremoves).shape hinv₁.2.1,
      (tracedStep_stepped hremoves).runtimesOpen hinv₁.2.2,
      le_trans hlater₁ (tracedStep_stepped hremoves).frames_length, removed_since hkey hremoves⟩
  have hinv₃ := hreturns.invariant
    (fun U => Recorded U ∧ Shape b U.toState ∧ RuntimesOpen U.toState ∧
      T₀.frames.length ≤ U.frames.length ∧
      ∀ v, U.cache.get? key = some v → U.Since T₀ v.version)
    (fun _ _ _ hl hU h => ⟨hU.1.step h, (tracedStep_stepped h).shape hU.2.1,
      (tracedStep_stepped h).runtimesOpen hU.2.2.1,
      le_trans hU.2.2.2.1 (tracedStep_stepped h).frames_length,
      cache_since hU.1 hl h hU.2.2.2.2⟩) hinv₂
  obtain ⟨hrecorded, hshape, hruntimes, hlater, hcache⟩ := hinv₃
  -- The session is behind the removal, and stays there.
  have hbehind := hbuild.invariant (Behind b T₀ key T₃.runtimes.length)
    (fun _ _ _ hl hU h => hU.step hl h)
    (behind_open hrecorded hshape hruntimes hlater hcache hopen)
  intro i c requested l p v hf hr hv
  exact (hbehind.frames i _ hf hr).values _ v hf (.inl (.inl hv))

end
/-! ## A build behind an invalidation -/

def coldTrace : Traced ℕ ℕ := .initial 0 (.new none AsyncMemoryCache.unlimited) []

/-- A session asks for key 0, and its source call is under way as unit of work 3. -/
def callUnderWay : List (Label ℕ ℕ) :=
  [.openRuntime .new, .call 0 none [0]] ++ turns [(0, 6), (1, 1), (2, 3)]

/-- A check for `NoJoinBack` where nobody else touches the cache and every flight is new. -/
def keepsBehind (T₀ T : Traced ℕ ℕ) : Label ℕ ℕ → Bool
  | .external _ => false
  | .run i .go => (T.frame? i).all fun f =>
      f.body.writing.all (fun v => sinceCheck T₀ T v.version) &&
        f.body.reserving.all (fun k => (T.tasks.get? k).isNone) &&
        match f.body with
        | .resolveOwned _ _ (.visiting _) =>
          ((T.runtime f.scope.runtime).pinned 0).all fun v => sinceCheck T₀ T v.version
        | _ => true
  | _ => true

theorem noJoinBack_of_check {T₀ T : Traced ℕ ℕ} {r : ℕ} {l : Label ℕ ℕ}
    (h : keepsBehind T₀ T l = true) : NoJoinBack T₀ 0 r T l := by
  have hframe : ∀ i f, l = .run i .go → T.frame? i = some f →
      (∀ v ∈ f.body.writing, sinceCheck T₀ T v.version = true) ∧
        (∀ k ∈ f.body.reserving, T.tasks.get? k = none) ∧
        ∀ keys lo sources, f.body = .resolveOwned keys lo (.visiting sources) →
          ∀ v, (T.runtime f.scope.runtime).pinned 0 = some v → sinceCheck T₀ T v.version = true := by
    rintro i f rfl hf
    have hchecks := (Option.all_eq_true _ _).mp h f hf
    rw [Bool.and_eq_true, Bool.and_eq_true] at hchecks
    obtain ⟨⟨hwrites, hreserves⟩, hvisit⟩ := hchecks
    refine ⟨List.all_eq_true.mp hwrites, ?_, ?_⟩
    · intro k hk
      exact Option.isNone_iff_eq_none.mp (List.all_eq_true.mp hreserves k hk)
    · intro keys lo sources hbody
      rw [hbody] at hvisit
      exact (Option.all_eq_true _ _).mp hvisit
  refine ⟨⟨?_, ?_⟩, ?_, ?_⟩
  · rintro cache rfl
    cases h
  · intro i f v hrun hf hv _
    exact since_of_check ((hframe i f hrun hf).1 v hv)
  · intro i f q hrun hf _ hk hq
    rw [(hframe i f hrun hf).2.1 0 hk] at hq
    cases hq
  · intro i c keys lo sources q v hrun hf _ _ hv
    exact since_of_check ((hframe i _ hrun hf).2.2 keys lo sources rfl v hv)

/-- The call under way fails once the key is removed. -/
def callFails : List (Label ℕ ℕ) :=
  [.run 3 (.raise (.other "RuntimeError" (by decide)))] ++ turns [(2, 6), (1, 2), (0, 3)]

/-- The later build asks for key 0 again. -/
def fetchedAgain : List (Label ℕ ℕ) :=
  [.call 1 none [0]] ++ turns [(4, 6), (5, 1), (6, 3)] ++
    [.run 7 (.answer (Dict.empty.set 0 ⟨9, none⟩))] ++ turns [(6, 8), (5, 2), (4, 3)]

/-- The runtime, the source call and the value of key 0 that frame `i` has. -/
def Traced.held (T : Traced ℕ ℕ) (i : ℕ) : Option (ℕ × Option ℕ × ℕ) :=
  match T.frame? i with
  | some ⟨c, .resolveMany _ l _⟩ =>
    (l.values.get? 0).map fun v => (c.runtime, T.producers.get? v.version, v.value)
  | _ => none

theorem held_some {T : Traced ℕ ℕ} {i r value : ℕ} {w : Option ℕ}
    (h : T.held i = some (r, w, value)) : ∃ c keys l p v,
      T.frame? i = some ⟨c, .resolveMany keys l p⟩ ∧ c.runtime = r ∧ l.values.get? 0 = some v ∧
        T.producers.get? v.version = w ∧ v.value = value := by
  unfold Traced.held at h
  split at h
  · rename_i c keys l p hf
    obtain ⟨v, hv, he⟩ := Option.map_eq_some_iff.mp h
    simp only [Prod.mk.injEq] at he
    exact ⟨c, keys, l, p, v, hf, he.1, hv, he.2.1, he.2.2⟩
  · cases h

/-- The later build gets what its own source call answers. -/
theorem invalidation_barrier_refetched : ∃ T₀ T₁ T₂ T₃ T : Traced ℕ ℕ,
    Run plainBuilder.tracedStep coldTrace callUnderWay T₀ ∧
      plainBuilder.tracedStep T₀ (.external (T₀.cache.invalidateMany [0])) = some T₁ ∧
      RunOf plainBuilder.tracedStep (NoWriteBack T₀ 0) T₁ callFails T₂ ∧
      plainBuilder.tracedStep T₂ (.openRuntime .new) = some T₃ ∧
      RunOf plainBuilder.tracedStep (NoJoinBack T₀ 0 T₂.runtimes.length) T₃ fetchedAgain T ∧
      T.held 4 = some (1, some 7, 9) ∧ T.DeliversSince T₀ 0 T₂.runtimes.length := by
  have hrun : (exec plainBuilder.tracedStep coldTrace callUnderWay).bind (fun T₀ =>
      (plainBuilder.tracedStep T₀ (.external (T₀.cache.invalidateMany [0]))).bind fun T₁ =>
        (execOf plainBuilder.tracedStep (keepsBehind T₀) T₁ callFails).bind fun T₂ =>
          (plainBuilder.tracedStep T₂ (.openRuntime .new)).bind fun T₃ =>
            (execOf plainBuilder.tracedStep (keepsBehind T₀) T₃ fetchedAgain).map fun T =>
              decide (T.held 4 = some (1, some 7, 9))) = some true := by
    decide +kernel
  obtain ⟨T₀, h₀, hrun⟩ := Option.bind_eq_some_iff.mp hrun
  obtain ⟨T₁, h₁, hrun⟩ := Option.bind_eq_some_iff.mp hrun
  obtain ⟨T₂, h₂, hrun⟩ := Option.bind_eq_some_iff.mp hrun
  obtain ⟨T₃, h₃, hrun⟩ := Option.bind_eq_some_iff.mp hrun
  obtain ⟨T, h, hheld⟩ := Option.map_eq_some_iff.mp hrun
  have hbegin := exec_run h₀
  have hreturns : RunOf plainBuilder.tracedStep (NoWriteBack T₀ 0) T₁ callFails T₂ :=
    (execOf_run h₂).mono fun _ _ hl => (noJoinBack_of_check (r := 0) hl).toNoWriteBack
  have hbuild : RunOf plainBuilder.tracedStep (NoJoinBack T₀ 0 T₂.runtimes.length) T₃
      fetchedAgain T :=
    (execOf_run h).mono fun _ _ hl => noJoinBack_of_check hl
  exact ⟨T₀, T₁, T₂, T₃, T, hbegin, h₁, hreturns, h₃, hbuild, of_decide_eq_true hheld,
    invalidation_barrier plainBuilder hbegin (.nil T₀) List.mem_cons_self h₁ hreturns h₃ hbuild⟩

/-! ## Values carried around an invalidation -/

def notExternal : Label ℕ ℕ → Bool
  | .external _ => false
  | _ => true

theorem notPublished_of_check {T : Traced ℕ ℕ} {l : Label ℕ ℕ} (h : notExternal l = true) :
    NotPublished 0 T l := by
  rintro cache rfl
  cases h

/-- The call under way answers, and its value is written. -/
def answerWritten : List (Label ℕ ℕ) :=
  [.run 3 (.answer (Dict.empty.set 0 ⟨8, none⟩))] ++ turns [(2, 4)]

def readFromCache : List (Label ℕ ℕ) := [.call 1 none [0]] ++ turns [(4, 6)]

/-- The later build joins before the call answers. -/
def joinedBefore : List (Label ℕ ℕ) :=
  [.call 1 none [0]] ++ turns [(4, 6)] ++ [.run 3 (.answer (Dict.empty.set 0 ⟨8, none⟩))] ++
    turns [(2, 8), (1, 2), (4, 3)]

/-- A later build delivers what unit of work 3 answered, although its call had begun before the
invalidation. -/
def Leaks (returning building : List (Label ℕ ℕ)) : Prop :=
  ∃ T₀ T₁ T₂ T₃ T : Traced ℕ ℕ,
    Run plainBuilder.tracedStep coldTrace callUnderWay T₀ ∧
      plainBuilder.tracedStep T₀ (.external (T₀.cache.invalidateMany [0])) = some T₁ ∧
      RunOf plainBuilder.tracedStep (NotPublished 0) T₁ returning T₂ ∧
      plainBuilder.tracedStep T₂ (.openRuntime .new) = some T₃ ∧
      RunOf plainBuilder.tracedStep (NotPublished 0) T₃ building T ∧
      T.held 4 = some (T₂.runtimes.length, some 3, 8) ∧ ¬ T.DeliversSince T₀ 0 T₂.runtimes.length

theorem leaks_of_check {returning building : List (Label ℕ ℕ)}
    (hrun : (exec plainBuilder.tracedStep coldTrace callUnderWay).bind (fun T₀ =>
      (plainBuilder.tracedStep T₀ (.external (T₀.cache.invalidateMany [0]))).bind fun T₁ =>
        (execOf plainBuilder.tracedStep (fun _ l => notExternal l) T₁ returning).bind fun T₂ =>
          (plainBuilder.tracedStep T₂ (.openRuntime .new)).bind fun T₃ =>
            (execOf plainBuilder.tracedStep (fun _ l => notExternal l) T₃ building).map fun T =>
              decide (T.held 4 = some (T₂.runtimes.length, some 3, 8)) && T₀.callBegan 3) =
      some true) : Leaks returning building := by
  obtain ⟨T₀, h₀, hrun⟩ := Option.bind_eq_some_iff.mp hrun
  obtain ⟨T₁, h₁, hrun⟩ := Option.bind_eq_some_iff.mp hrun
  obtain ⟨T₂, h₂, hrun⟩ := Option.bind_eq_some_iff.mp hrun
  obtain ⟨T₃, h₃, hrun⟩ := Option.bind_eq_some_iff.mp hrun
  obtain ⟨T, h, hfacts⟩ := Option.map_eq_some_iff.mp hrun
  rw [Bool.and_eq_true, decide_eq_true_eq] at hfacts
  obtain ⟨hheld, hbegan⟩ := hfacts
  refine ⟨T₀, T₁, T₂, T₃, T, exec_run h₀, h₁, ?_, h₃, ?_, hheld, ?_⟩
  · exact (execOf_run h₂).mono fun _ _ => notPublished_of_check
  · exact (execOf_run h).mono fun _ _ => notPublished_of_check
  · intro hsince
    obtain ⟨c, keys, l, p, v, hf, hr, hv, hw, _⟩ := held_some hheld
    obtain ⟨w, hw', hlate⟩ := hsince 4 c keys l p v hf hr hv
    rw [hw, Option.some.injEq] at hw'
    rw [← hw', hbegan] at hlate
    cases hlate

/-- The value is carried around the invalidation through the cache, and through the flight. -/
theorem invalidation_leaks : Leaks answerWritten readFromCache ∧ Leaks [] joinedBefore :=
  ⟨leaks_of_check (by decide +kernel), leaks_of_check (by decide +kernel)⟩

end Coalestra
