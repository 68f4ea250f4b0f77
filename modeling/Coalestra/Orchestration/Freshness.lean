import Coalestra.Orchestration.Deadlines

/-! # Freshness labels

While the clock stands still, a value that a resolution did not find in the memo is labelled stale
exactly when it is older than its TTL, and it is never older than its maximal staleness. One path
decides the label without looking at the age: a cached value of higher authority that supersedes a
source result is always called fresh. -/

namespace Coalestra
set_option autoImplicit false
set_option maxHeartbeats 250000

section
variable {K V : Type} [DecidableEq K]

/-! ## Labels -/

/-- The label of a value of `key` is right at this time. -/
def Truthful (b : Builder K V) (now : ℚ) (key : K) (v : SnapshotValue K V) : Prop :=
  (v.stale = true ↔ (b.policyFor key).ttlSeconds < ((now - v.observedAt : ℚ) : WithTop ℚ)) ∧
    ((now - v.observedAt : ℚ) : WithTop ℚ) ≤ (b.policyFor key).maxStaleSeconds

omit [DecidableEq K] in
/-- Ages below zero count as zero, which no policy can tell from the difference. -/
theorem truthful_iff_age {b : Builder K V} {now : ℚ} {key : K} {v : SnapshotValue K V} :
    Truthful b now key v ↔
      (v.stale = true ↔ (b.policyFor key).ttlSeconds < (ageAt now v.observedAt : WithTop ℚ)) ∧
        (ageAt now v.observedAt : WithTop ℚ) ≤ (b.policyFor key).maxStaleSeconds := by
  have httl := (b.policyFor key).ttl_nonneg
  have hmax := le_trans httl (b.policyFor key).ttl_le_maxStale
  have hage : (ageAt now v.observedAt : WithTop ℚ) =
      max 0 ((now - v.observedAt : ℚ) : WithTop ℚ) := by
    rw [ageAt, WithTop.coe_max, WithTop.coe_zero]
  rw [Truthful, hage]
  refine and_congr (iff_congr Iff.rfl ?_) ?_
  · rw [lt_max_iff, or_iff_right (not_lt.mpr httl)]
  · rw [max_le_iff, and_iff_right hmax]

omit [DecidableEq K] in
/-- A copy labelled fresh is truthful when the age is within the TTL. -/
theorem cachedCopy_fresh {b : Builder K V} {now : ℚ} {key : K} {v : SnapshotValue K V}
    (h : (ageAt now v.observedAt : WithTop ℚ) ≤ (b.policyFor key).ttlSeconds) :
    Truthful b now key (b.cachedCopy now false v) := by
  rw [truthful_iff_age]
  refine ⟨⟨fun hs => absurd hs Bool.false_ne_true, fun hlt => absurd h (not_le.mpr hlt)⟩, ?_⟩
  exact le_trans h (b.policyFor key).ttl_le_maxStale

omit [DecidableEq K] in
/-- A copy labelled stale is truthful when the age is between the TTL and the tolerance. -/
theorem cachedCopy_stale {b : Builder K V} {now : ℚ} {key : K} {v : SnapshotValue K V}
    (h : (b.policyFor key).ttlSeconds < (ageAt now v.observedAt : WithTop ℚ))
    (hmax : (ageAt now v.observedAt : WithTop ℚ) ≤ (b.policyFor key).maxStaleSeconds) :
    Truthful b now key (b.cachedCopy now true v) := by
  rw [truthful_iff_age]
  exact ⟨⟨fun _ => h, fun _ => rfl⟩, hmax⟩

omit [DecidableEq K] in
/-- A source value is labelled by its age. -/
theorem snapshotValue_truthful {b : Builder K V} {now : ℚ} {version : ℕ} {key : K}
    {source : Source K} {payload : SourcePayload V} {versions : Dict K ℕ}
    (h : ((b.snapshotValue now version key source payload versions).ageSeconds : WithTop ℚ) ≤
      (b.policyFor key).maxStaleSeconds) :
    Truthful b now key (b.snapshotValue now version key source payload versions) := by
  rw [truthful_iff_age]
  refine ⟨?_, h⟩
  show decide _ = true ↔ _
  rw [decide_eq_true_eq]
  rfl

/-! ## Sessions at rest -/

/-- No coroutine of this runtime is running. -/
def State.Idle (s : State K V) (r : ℕ) : Prop :=
  ∀ i f, s.frame? i = some f → f.scope.runtime = r → f.body.finished = true

/-- The conditions of a step while the clock stands still since `s₀`: a cached value that supersedes
a source result is within its TTL, and runtimes that were idle at `s₀` join only flights of such
runtimes. -/
structure FrozenStep (b : Builder K V) (s₀ s : State K V) (l : Label K V) : Prop where
  still : ∀ now, l ≠ .tick now
  winners : ∀ i c keys lo sources k w rest, l = .run i .go →
    s.frame? i = some ⟨c, .resolveOwned keys lo (.superseding sources ((k, w) :: rest))⟩ →
    (ageAt s.now w.observedAt : WithTop ℚ) ≤ (b.policyFor k).ttlSeconds
  joins : ∀ i f k q cp owned, l = .run i .go → s.frame? i = some f →
    s₀.Idle f.scope.runtime → k ∈ f.body.reserving → s.tasks.get? k = some q →
    s.Called q cp (.produce owned) → s₀.Idle cp.runtime

/-- What every state since `s₀` satisfies while the clock stands still. -/
structure Frozen (b : Builder K V) (s₀ s : State K V) : Prop where
  shape : Shape b s
  registered : RegisteredOpen s
  runtimes : RuntimesOpen s
  now : s.now = s₀.now
  later : s₀.frames.length ≤ s.frames.length
  settled : ∀ i f, i < s₀.frames.length → s.frame? i = some f → s₀.Idle f.scope.runtime →
    f.body.finished = true

theorem Stepped.frozen {b : Builder K V} {s₀ s t : State K V} {l : Label K V}
    (h : Stepped b s l t) (hl : FrozenStep b s₀ s l) (hs : Frozen b s₀ s) : Frozen b s₀ t := by
  refine ⟨h.shape hs.shape, h.registeredOpen hs.registered, h.runtimesOpen hs.runtimes, ?_, ?_, ?_⟩
  · cases h with
    | run _ hm => rw [← hs.now]; exact hm.now
    | tick => exact absurd rfl (hl.still _)
    | _ => exact hs.now
  · exact le_trans hs.later h.frames_length
  · intro i f hi hf hidle
    cases h with
    | @run j e g m hg hm =>
      rcases frame?_apply_cases hg hf with ⟨rfl, rfl⟩ | ⟨rfl, _⟩ | ⟨_, hf⟩
      · have hdone := hs.settled i g hi hg hidle
        rw [hm.unfinished] at hdone
        cases hdone
      · exact absurd hi (not_lt.mpr hs.later)
      · exact hs.settled i f hi hf hidle
    | call =>
      rcases frame?_append_cases hf with hf | ⟨rfl, _⟩
      · exact hs.settled i f hi hf hidle
      · exact absurd hi (not_lt.mpr hs.later)
    | _ => exact hs.settled i f hi hf hidle

/-! ## The discipline of labels -/

/-- Keys of runtime `r` that a read of the memo finds. -/
def State.PinnedAt (s : State K V) (r : ℕ) (k : K) : Prop := (s.runtime r).pinned k ≠ none

/-- Labels are right at the time of `s₀` in every frame started since in a runtime that was idle
then. `kept` are the keys that may have been pinned before. -/
def trueLabels (b : Builder K V) (s₀ s : State K V) (kept : ℕ → K → Prop) : Discipline K V where
  covers i o := s₀.frames.length ≤ i ∧ s₀.Idle o.2
  covers_mono _ _ _ hij h := ⟨le_trans h.1 hij.le, h.2⟩
  asked _ _ _ := True
  acquired o _ k := ∀ v, (s.runtime o.2).pinned k = some v → Truthful b s₀.now k v
  clock now := now = s₀.now
  lookup _ k x := ∀ v, x.value = some v →
    (x.fresh = true ↔ (ageAt s₀.now v.observedAt : WithTop ℚ) ≤ (b.policyFor k).ttlSeconds) ∧
      (ageAt s₀.now v.observedAt : WithTop ℚ) ≤ (b.policyFor k).maxStaleSeconds
  candidate _ k v := (b.policyFor k).ttlSeconds < (ageAt s₀.now v.observedAt : WithTop ℚ) ∧
    (ageAt s₀.now v.observedAt : WithTop ℚ) ≤ (b.policyFor k).maxStaleSeconds
  copy _ k v := Truthful b s₀.now k v
  served o k v := Truthful b s₀.now k v ∨ kept o.2 k
  value _ k v := Truthful b s₀.now k v
  best _ k v := Truthful b s₀.now k v
  winner _ _ _ := True
  error _ _ _ := True
  raised _ _ := True
  failure _ _ _ := True
  attempt _ _ _ _ := True
  derivable _ _ _ := True
  dependencies _ _ _ _ := True
  shares _ _ := True

/-- Whatever an idle runtime has pinned is labelled right or was pinned before. -/
def PinsTruthful (b : Builder K V) (s₀ s : State K V) (kept : ℕ → K → Prop) : Prop :=
  ∀ r k v, s₀.Idle r → (s.runtime r).pinned k = some v → Truthful b s₀.now k v ∨ kept r k

/-- A flight that is still registered was not finished at `s₀`. -/
theorem Frozen.joinable {b : Builder K V} {s₀ s : State K V} (hs : Frozen b s₀ s) {k : K} {q : ℕ}
    {cp : Scope K} {owned : List K} (hq : s.tasks.get? k = some q)
    (hc : s.Called q cp (.produce owned)) (hidle : s₀.Idle cp.runtime) :
    s₀.frames.length ≤ q := by
  by_contra hlt
  obtain ⟨f, hf, rfl, hcall⟩ := hc
  have hdone := hs.settled q f (not_le.mp hlt) hf hidle
  obtain ⟨cp', owned', hcalled, hmem, _⟩ := hs.shape.tasks k q hq
  have hself : s.Called q f.scope f.body.call := ⟨f, hf, rfl, rfl⟩
  have hbody := (hs.shape.frames q f hf).body
  have hopen := hs.registered k q hq
  rw [future_eq, hf, Option.bind_some] at hopen
  obtain ⟨c, body⟩ := f
  cases body with
  | produce owned₁ settled p =>
    cases p with
    | done =>
      have howned := (hself.unique hcalled).2
      rw [Body.call, Call.produce.injEq] at howned
      subst howned
      exact Dict.get?_eq_none.mp hopen (hbody.2 k hmem)
    | _ => cases hdone
  | _ => cases hcall

theorem labels_rules {b : Builder K V} {s₀ s : State K V} {kept : ℕ → K → Prop} {l : Label K V}
    (hs : Frozen b s₀ s) (hpins : PinsTruthful b s₀ s kept) (hl : FrozenStep b s₀ s l) {i : ℕ}
    {e : Event K V} {f : Frame K V} {m : Step K V} (hrun : l = .run i e)
    (hf : s.frame? i = some f) (hm : Move b s f.scope f.body e m)
    (hcov : (trueLabels b s₀ s kept).covers i f.scope.origin) :
    Rules b s f.scope f.body e (trueLabels b s₀ s kept) where
  clock := hs.now
  refreshed k _ v hv := by
    have hnew : s.runtime s.runtimes.length = .new := by
      unfold Shared.runtime
      rw [List.getElem?_eq_none le_rfl]
      rfl
    change (s.runtime s.runtimes.length).pinned k = some v at hv
    rw [hnew] at hv
    cases hv
  missing k _ hnone v hv := by
    change (s.runtime f.scope.runtime).pinned k = some v at hv
    rw [hnone] at hv
    cases hv
  pinned k v _ hv := hpins _ _ _ hcov.2 hv
  revisited k v hacq hv := hacq v hv
  read now k x hnow _ hx := by
    intro v hv
    change now = s₀.now at hnow
    subst hnow
    rcases hx with ⟨hnone, _, _⟩ | ⟨w, _, rfl, hmax⟩
    · rw [hnone] at hv
      cases hv
    · cases hv
      exact ⟨decide_eq_true_iff, hmax⟩
  isolated k x hx := by
    intro v hv
    obtain ⟨w, hw, rfl⟩ := Option.map_eq_some_iff.mp hv
    exact hx w hw
  hit k x v stale hx hv hst := by
    obtain ⟨hfresh, hmax⟩ := hx v hv
    rw [hs.now]
    rcases hst with ⟨rfl, hf⟩ | ⟨rfl, hf, _⟩
    · exact cachedCopy_fresh (hfresh.mp hf)
    · refine cachedCopy_stale (not_le.mp fun h => ?_) hmax
      rw [hfresh.mpr h] at hf
      cases hf
  kept k x v hx hv hf _ := by
    obtain ⟨hfresh, hmax⟩ := hx v hv
    refine ⟨not_le.mp fun h => ?_, hmax⟩
    rw [hfresh.mpr h] at hf
    cases hf
  fallback k v err hv _ := by
    rw [hs.now]
    exact cachedCopy_stale hv.1 hv.2
  installed _ _ _ h := h
  serve _ _ _ _ _ _ _ _ h := .inl h
  joins k q cp owned hk hq hc := by
    have he := hm.go_of_reserving hk
    subst he
    have hidle := hl.joins i f k q cp owned hrun hf hcov.2 hk hq hc
    exact ⟨⟨hs.joinable hq hc hidle, hidle⟩, trivial⟩
  shares_self := trivial
  joinValue _ _ _ _ _ _ h := h
  joinError _ _ _ _ _ _ _ := trivial
  joinRaised _ _ _ _ := trivial
  unsupported _ _ _ _ _ _ := trivial
  direct _ _ _ _ _ := trivial
  undeclared _ _ _ _ _ _ := trivial
  cyclic _ _ _ _ _ _ _ _ _ _ := trivial
  depends _ _ _ _ _ _ _ _ _ _ _ := trivial
  derives _ _ _ _ _ _ _ _ := trivial
  unresolved _ _ _ := trivial
  childRaised _ _ _ _ := trivial
  versions _ _ _ _ _ := trivial
  answered _ _ _ _ _ _ _ := trivial
  answeredBatch _ _ _ _ _ _ _ _ := trivial
  omitted _ _ _ _ := trivial
  failed _ _ _ _ _ _ _ _ := trivial
  interrupted _ _ := trivial
  refused _ _ _ _ _ _ := trivial
  stale source k a v versions _ hh := by
    refine ⟨trivial, fun hage => ?_⟩
    obtain ⟨payload, _, rfl⟩ := harvest_value (.inr hh)
    rw [hs.now] at hage ⊢
    exact snapshotValue_truthful hage
  fresh keys lo source sources attempts k rest accepted a v versions _ _ _ hh := by
    obtain ⟨payload, _, rfl⟩ := harvest_value (.inl hh)
    have hfresh := harvest_fresh hh
    rw [hs.now] at hfresh ⊢
    refine snapshotValue_truthful ?_
    change decide _ = false at hfresh
    rw [decide_eq_false_iff_not, not_lt] at hfresh
    exact le_trans hfresh (b.policyFor k).ttl_le_maxStale
  superseded _ _ _ _ := trivial
  supersedes keys lo sources k w rest hbody _ _ := by
    obtain ⟨c, body⟩ := f
    change body = _ at hbody
    subst hbody
    have he : e = .go := by
      cases hm with
      | owned hm =>
        cases hm with
        | supersede => rfl
        | interrupt hp => cases hp
    subst he
    have hage := hl.winners i c keys lo sources k w rest hrun hf
    rw [hs.now] at hage ⊢
    exact cachedCopy_fresh hage
  bestStale _ _ _ _ _ _ _ _ h := h
  exhausted _ _ _ := trivial
  omittedKey _ _ := trivial

/-! ## Steps -/

/-- A key whose memo entry is labelled right keeps such an entry: whatever is stored is labelled
right, too. -/
theorem Stepped.labels_acquired {b : Builder K V} {s₀ s t : State K V} {kept : ℕ → K → Prop}
    {l : Label K V} (h : Stepped b s l t) (hl : FrozenStep b s₀ s l) (hs : Frozen b s₀ s)
    (hpins : PinsTruthful b s₀ s kept) (hk : s.Keeps (trueLabels b s₀ s kept)) {r : ℕ}
    (hr : r < s.runtimes.length) (hidle : s₀.Idle r) {k : K} {v : SnapshotValue K V}
    (hv : (t.runtime r).pinned k = some v) :
    (s.runtime r).pinned k = some v ∨ Truthful b s₀.now k v := by
  cases h with
  | @run i e f m hf hm =>
    rcases hm.pinned_cases hv with hold | ⟨rfl, hi⟩
    · exact .inl hold
    · by_cases hlt : i < s₀.frames.length
      · have hdone := hs.settled i f hlt hf hidle
        rw [hm.unfinished] at hdone
        cases hdone
      · have hcov : (trueLabels b s₀ s kept).covers i f.scope.origin := ⟨not_lt.mp hlt, hidle⟩
        have R := labels_rules hs hpins hl rfl hf hm hcov
        exact .inr (R.installs (hk i f hf hcov) hi)
  | @openRuntime r' _ =>
    rw [runtime_append_lt (s := s.toShared) (r := r') rfl hr] at hv
    exact .inl hv
  | _ => exact .inl hv

theorem Stepped.labels {b : Builder K V} {s₀ s t : State K V} {kept : ℕ → K → Prop}
    {l : Label K V} (h : Stepped b s l t) (hl : FrozenStep b s₀ s l) (hs : Frozen b s₀ s)
    (hpins : PinsTruthful b s₀ s kept) (hk : s.Keeps (trueLabels b s₀ s kept)) :
    t.Keeps (trueLabels b s₀ t kept) := by
  have hkeeps : t.Keeps (trueLabels b s₀ s kept) := by
    refine h.keeps hs.shape hk ?_ ?_ fun _ _ _ _ _ _ => trivial
    · intro i e f m hrun hf hm hcov
      exact labels_rules hs hpins hl hrun hf hm hcov
    · intro i e f m g hrun hf hm hnot hg hcov
      rcases hm.spawn_runtime hg with hr | ⟨_, _, key, rfl⟩
      · have hidle : s₀.Idle f.scope.runtime := hr ▸ hcov.2
        have hlt : i < s₀.frames.length := by
          by_contra hlt
          exact hnot ⟨not_lt.mp hlt, hidle⟩
        have hdone := hs.settled i f hlt hf hidle
        rw [hm.unfinished] at hdone
        cases hdone
      · refine ⟨?_, trivial⟩
        intro v hv
        have hnew : s.runtime s.runtimes.length = .new := by
          unfold Shared.runtime
          rw [List.getElem?_eq_none le_rfl]
          rfl
        change (s.runtime s.runtimes.length).pinned key = some v at hv
        rw [hnew] at hv
        cases hv
  intro i f hf hcov
  refine Discipline.Holds.imp (D := trueLabels b s₀ s kept) ?_ (hkeeps i f hf hcov)
  exact {
    acquired := by
      intro path k hacq v hv
      by_cases hr : f.scope.runtime < s.runtimes.length
      · rcases h.labels_acquired hl hs hpins hk hr hcov.2 hv with hold | hnew
        · exact hacq v hold
        · exact hnew
      · have hnone := h.pinned_new hs.runtimes hf (not_lt.mp hr) k
        change (t.runtime f.scope.runtime).pinned k = some v at hv
        rw [hnone] at hv
        cases hv }

/-! ## Runs -/

/-- Before a call every memo entry counts as pinned before. -/
theorem Stepped.labels_before {b : Builder K V} {s₀ s t : State K V} {l : Label K V}
    (h : Stepped b s l t) (hl : FrozenStep b s₀ s l) (hs : Frozen b s₀ s)
    (hk : s.Keeps (trueLabels b s₀ s s.PinnedAt)) :
    t.Keeps (trueLabels b s₀ t t.PinnedAt) := by
  have hpins : PinsTruthful b s₀ s s.PinnedAt := by
    intro r k v _ hv
    right
    rw [State.PinnedAt, hv]
    exact Option.some_ne_none v
  have hkeeps := h.labels hl hs hpins hk
  intro i f hf hcov
  refine Discipline.Holds.imp (D := trueLabels b s₀ t s.PinnedAt) ?_ (hkeeps i f hf hcov)
  exact {
    served := by
      rintro k v (hv | hv)
      · exact .inl hv
      · obtain ⟨w, hw⟩ := Option.ne_none_iff_exists'.mp hv
        obtain ⟨w', hw'⟩ := h.pinned_grows hw
        right
        change (t.runtime f.scope.origin.2).pinned k ≠ none
        rw [hw']
        exact Option.some_ne_none w' }

/-- Since a call, the keys that may be pinned with another label are those pinned when it came. -/
def State.keptAt (s : State K V) (r : ℕ) (k : K) : Prop := s.runtimes.length ≤ r ∨ s.PinnedAt r k

theorem Stepped.pinsTruthful {b : Builder K V} {s₀ s₁ s t : State K V} {l : Label K V}
    (h : Stepped b s l t) (hl : FrozenStep b s₀ s l) (hs : Frozen b s₀ s)
    (hpins : PinsTruthful b s₀ s s₁.keptAt) (hk : s.Keeps (trueLabels b s₀ s s₁.keptAt))
    (hlen : s₁.runtimes.length ≤ s.runtimes.length) : PinsTruthful b s₀ t s₁.keptAt := by
  intro r k v hidle hv
  rcases Nat.lt_or_ge r s.runtimes.length with hr | hr
  · rcases h.labels_acquired hl hs hpins hk hr hidle hv with hold | hnew
    · exact hpins r k v hidle hold
    · exact .inl hnew
  · exact .inr (.inl (le_trans hlen hr))

theorem frozen_start {b : Builder K V} {now : ℚ} {cache : AsyncMemoryCache K V}
    {revisions : List (Dict K ℕ)} {ls : List (Label K V)} {s₀ : State K V}
    (h : Run b.step (State.initial now cache revisions) ls s₀) : Frozen b s₀ s₀ := by
  have hinv := h.invariant (fun s => Shape b s ∧ RegisteredOpen s ∧ RuntimesOpen s)
    (fun s l t _ hs hstep => ⟨(step_cases hstep).shape hs.1,
      (step_cases hstep).registeredOpen hs.2.1, (step_cases hstep).runtimesOpen hs.2.2⟩)
    ⟨shape_initial b now cache revisions, ?_, ?_⟩
  · exact ⟨hinv.1, hinv.2.1, hinv.2.2, rfl, le_rfl, fun i f _ hf hidle => hidle i f hf rfl⟩
  · intro k q hk
    simp [State.initial] at hk
  · intro i f hf
    simp [State.frame?, State.initial] at hf

/-- Freshness labels are truthful. Let the clock stand still since any reachable state `s₀`, and let
a session without unfinished work at `s₀` call the builder in `s₁`. As long as every cached value
that supersedes a source result is within its TTL, and such sessions join flights of such sessions
only, each value the call holds for a key that the session's memo did not hold when the call came is
labelled stale exactly when it is older than its TTL, and not older than its maximal staleness. -/
theorem labels_truthful (b : Builder K V) {now : ℚ} {cache : AsyncMemoryCache K V}
    {revisions : List (Dict K ℕ)} {ls₀ ls₁ ls₂ : List (Label K V)} {s₀ s₁ s₂ t : State K V}
    (h₀ : Run b.step (State.initial now cache revisions) ls₀ s₀)
    (h₁ : RunOf b.step (FrozenStep b s₀) s₀ ls₁ s₁) {runtime : ℕ} {deadline : Option ℚ}
    {keys : List K} (hidle : s₀.Idle runtime)
    (hcall : b.step s₁ (.call runtime deadline keys) = some s₂)
    (h₂ : RunOf b.step (FrozenStep b s₀) s₂ ls₂ t) {c : Scope K} {requested : List K}
    {l : ManyLocals K V} {p : ManyPhase K V}
    (hf : t.frame? s₁.frames.length = some ⟨c, .resolveMany requested l p⟩) {k : K}
    {v : SnapshotValue K V} (hv : l.values.get? k = some v)
    (hk : (s₁.runtime runtime).memo.get? k = none) : Truthful b t.now k v := by
  -- From `s₀` to the call: every entry of a memo counts as pinned before.
  have hbefore := h₁.invariant
    (fun s => Frozen b s₀ s ∧ s.Keeps (trueLabels b s₀ s s.PinnedAt))
    (fun s l u hl hs hstep => ⟨(step_cases hstep).frozen hl hs.1,
      (step_cases hstep).labels_before hl hs.1 hs.2⟩)
    ⟨frozen_start h₀, fun i f hf hcov => absurd (lt_of_frame? hf) (not_lt.mpr hcov.1)⟩
  have hpins : PinsTruthful b s₀ s₁ s₁.keptAt := by
    intro r k v _ hv
    right; right
    rw [State.PinnedAt, hv]
    exact Option.some_ne_none v
  have hkeeps : s₁.Keeps (trueLabels b s₀ s₁ s₁.keptAt) := by
    intro i f hf hcov
    refine Discipline.Holds.imp (D := trueLabels b s₀ s₁ s₁.PinnedAt) ?_
      (hbefore.2 i f hf hcov)
    exact { served := fun k v hv => hv.imp_right .inr }
  -- From the call on: only what the memo held when the call came does.
  have hstep : ∀ s l u, FrozenStep b s₀ s l →
      (Frozen b s₀ s ∧ PinsTruthful b s₀ s s₁.keptAt ∧
        s.Keeps (trueLabels b s₀ s s₁.keptAt) ∧ s₁.runtimes.length ≤ s.runtimes.length) →
      b.step s l = some u →
      Frozen b s₀ u ∧ PinsTruthful b s₀ u s₁.keptAt ∧
        u.Keeps (trueLabels b s₀ u s₁.keptAt) ∧ s₁.runtimes.length ≤ u.runtimes.length := by
    rintro s l u hl ⟨hs, hp, hks, hlen⟩ hstep
    have h := step_cases hstep
    exact ⟨h.frozen hl hs, h.pinsTruthful hl hs hp hks hlen, h.labels hl hs hp hks,
      le_trans hlen h.runtimes_length⟩
  have hcallStep : FrozenStep b s₀ s₁ (.call runtime deadline keys) := by
    refine ⟨fun _ h => ?_, fun _ _ _ _ _ _ _ _ h _ => ?_, fun _ _ _ _ _ _ h _ _ _ _ _ => ?_⟩ <;>
      cases h
  have hinv := h₂.invariant _ hstep
    (hstep s₁ _ s₂ hcallStep ⟨hbefore.1, hpins, hkeeps, le_rfl⟩ hcall)
  obtain ⟨hfrozen, -, hkept, -⟩ := hinv
  -- The frame of the call keeps its scope.
  obtain ⟨hopen, hcalled⟩ := called_call hcall
  have hself : t.Called s₁.frames.length c (.many requested) := ⟨_, hf, rfl, rfl⟩
  have hc := (hself.unique (h₂.called hcalled)).1
  subst hc
  have hserved := (hkept _ _ hf ⟨hbefore.1.later, hidle⟩).1.values k v hv
  rw [hfrozen.now]
  rcases hserved with hgood | hlate | hpinned
  · exact hgood
  · exact absurd hopen (not_lt.mpr hlate)
  · refine absurd ?_ hpinned
    change (s₁.runtime runtime).pinned k = none
    rw [ResolutionRuntime.pinned, hk]
    split <;> rfl

end
/-! ## A superseding value past its TTL -/

/-- The plain builder, with a feed that publishes under a higher rank than its source. -/
def feedBuilder : Builder ℕ ℕ :=
  { plainBuilder with authorityFor := fun _ => ⟨(Dict.empty : Dict String ℤ).set "feed" 10, 0⟩ }

/-- A cache that holds what the feed observed for key 0. -/
def feedCache (observedAt : ℚ) : AsyncMemoryCache ℕ ℕ :=
  { (AsyncMemoryCache.new none AsyncMemoryCache.unlimited : AsyncMemoryCache ℕ ℕ) with
    entries := CacheEntries.empty.store
      ⟨0, 7, "feed", observedAt, observedAt, 0, false, false, 10, 0, .empty⟩ }

/-- The source, the observation time and the label that a finished `_resolve_many` returns. -/
def State.delivered (s : State ℕ ℕ) (i k : ℕ) : Option (String × ℚ × Bool) :=
  match s.frame? i with
  | some ⟨_, .resolveMany _ l .done⟩ =>
    (l.values.get? k).map fun v => (v.source, v.observedAt, v.stale)
  | _ => none

theorem delivered_some {s : State ℕ ℕ} {i k : ℕ} {source : String} {observedAt : ℚ} {stale : Bool}
    (h : s.delivered i k = some (source, observedAt, stale)) : ∃ c keys l v,
      s.frame? i = some ⟨c, .resolveMany keys l .done⟩ ∧ l.values.get? k = some v ∧
        v.source = source ∧ v.observedAt = observedAt ∧ v.stale = stale := by
  unfold State.delivered at h
  split at h
  · rename_i c keys l hf
    obtain ⟨v, hv, he⟩ := Option.map_eq_some_iff.mp h
    simp only [Prod.mk.injEq] at he
    exact ⟨c, keys, l, v, hf, hv, he⟩
  · cases h

def notTick : Label ℕ ℕ → Bool
  | .tick _ => false
  | _ => true

/-- A check for `FrozenStep` since a state without frames. -/
def keepsFrozen (b : Builder ℕ ℕ) (s : State ℕ ℕ) (l : Label ℕ ℕ) : Bool :=
  notTick l && match l with
    | .run i _ => match s.frame? i with
      | some ⟨_, .resolveOwned _ _ (.superseding _ ((k, w) :: _))⟩ =>
        decide ((ageAt s.now w.observedAt : WithTop ℚ) ≤ (b.policyFor k).ttlSeconds)
      | _ => true
    | _ => true

theorem idle_initial {now : ℚ} {cache : AsyncMemoryCache ℕ ℕ} {revisions : List (Dict ℕ ℕ)}
    (r : ℕ) : (State.initial now cache revisions).Idle r := by
  intro i f hf
  simp [State.frame?, State.initial] at hf

theorem frozenStep_of_check {b : Builder ℕ ℕ} {s₀ s : State ℕ ℕ} {l : Label ℕ ℕ}
    (hidle : ∀ r, s₀.Idle r) (h : keepsFrozen b s l = true) : FrozenStep b s₀ s l := by
  obtain ⟨htick, hage⟩ := Bool.and_eq_true_iff.mp h
  refine ⟨?_, ?_, fun _ _ _ _ cp _ _ _ _ _ _ _ => hidle cp.runtime⟩
  · rintro now rfl
    cases htick
  · rintro i c keys lo sources k w rest rfl hf
    dsimp only at hage
    rw [hf] at hage
    exact of_decide_eq_true hage

/-- A session asks for key 0 and its source call is under way. -/
def sourceUnderWay : List (Label ℕ ℕ) :=
  [.openRuntime .new, .openRuntime .new, .call 0 none [0]] ++ turns [(0, 6), (1, 1), (2, 3)]

/-- A second session joins; the feed publishes before the source answers. -/
def publishedMeanwhile : List (Label ℕ ℕ) :=
  turns [(4, 6)] ++
    [.external (feedCache (-5)), .run 3 (.answer (Dict.empty.set 0 ⟨8, none⟩))] ++
    turns [(2, 10), (1, 2), (4, 3)]

/-- The joined flight delivers the published value, five seconds old and within its TTL of ten. -/
theorem labels_truthful_published : ∃ (s₁ s₂ t : State ℕ ℕ) (c : Scope ℕ) (keys : List ℕ)
    (l : ManyLocals ℕ ℕ) (v : SnapshotValue ℕ ℕ),
    RunOf feedBuilder.step (FrozenStep feedBuilder coldState) coldState sourceUnderWay s₁ ∧
      feedBuilder.step s₁ (.call 1 none [0]) = some s₂ ∧
      RunOf feedBuilder.step (FrozenStep feedBuilder coldState) s₂ publishedMeanwhile t ∧
      t.frame? s₁.frames.length = some ⟨c, .resolveMany keys l .done⟩ ∧
      l.values.get? 0 = some v ∧ v.source = "feed" ∧ Truthful feedBuilder t.now 0 v := by
  have hrun : (execOf feedBuilder.step (keepsFrozen feedBuilder) coldState sourceUnderWay).bind
      (fun s₁ => (feedBuilder.step s₁ (.call 1 none [0])).bind fun s₂ =>
        (execOf feedBuilder.step (keepsFrozen feedBuilder) s₂ publishedMeanwhile).map fun t =>
          (decide ((s₁.runtime 1).memo.get? 0 |>.isNone),
            decide (t.delivered s₁.frames.length 0 = some ("feed", -5, false)))) =
      some (true, true) := by
    decide +kernel
  obtain ⟨s₁, h₁, hrun⟩ := Option.bind_eq_some_iff.mp hrun
  obtain ⟨s₂, hcall, hrun⟩ := Option.bind_eq_some_iff.mp hrun
  obtain ⟨t, h₂, hfacts⟩ := Option.map_eq_some_iff.mp hrun
  simp only [Prod.mk.injEq, decide_eq_true_eq, Option.isNone_iff_eq_none] at hfacts
  obtain ⟨hmemo, hdelivered⟩ := hfacts
  obtain ⟨c, keys, l, v, hf, hv, hsource, _, _⟩ := delivered_some hdelivered
  have hok₁ : RunOf feedBuilder.step (FrozenStep feedBuilder coldState) coldState
      sourceUnderWay s₁ :=
    (execOf_run h₁).mono fun _ _ => frozenStep_of_check fun r => idle_initial r
  have hok₂ : RunOf feedBuilder.step (FrozenStep feedBuilder coldState) s₂ publishedMeanwhile t :=
    (execOf_run h₂).mono fun _ _ => frozenStep_of_check fun r => idle_initial r
  exact ⟨s₁, s₂, t, c, keys, l, v, hok₁, hcall, hok₂, hf, hv, hsource,
    labels_truthful feedBuilder (.nil coldState) hok₁ (idle_initial 1) hcall hok₂ hf hv hmemo⟩

/-- A new session asks for key 0 while the cache holds a published value past its TTL. -/
def publishedBefore : List (Label ℕ ℕ) :=
  [.openRuntime .new, .call 0 none [0]] ++ turns [(0, 6), (1, 1), (2, 3)] ++
    [.run 3 (.answer (Dict.empty.set 0 ⟨8, none⟩))] ++ turns [(2, 10), (1, 2), (0, 3)]

/-- The source answers, the published value of higher rank supersedes the answer, and it is labelled
fresh although it is twelve seconds old and its TTL is ten. The clock never moves. -/
theorem superseding_value_labelled_fresh : ∃ (t : State ℕ ℕ) (c : Scope ℕ) (keys : List ℕ)
    (l : ManyLocals ℕ ℕ) (v : SnapshotValue ℕ ℕ),
    RunOf feedBuilder.step (fun _ l => notTick l = true)
        (.initial 0 (feedCache (-12)) [.empty]) publishedBefore t ∧
      t.frame? 0 = some ⟨c, .resolveMany keys l .done⟩ ∧ l.values.get? 0 = some v ∧
      v.observedAt = -12 ∧ v.stale = false ∧ ¬ Truthful feedBuilder t.now 0 v := by
  have hrun : (execOf feedBuilder.step (fun _ l => notTick l)
      (.initial 0 (feedCache (-12)) [.empty]) publishedBefore).map (fun t =>
        (decide (t.now = 0), decide (t.delivered 0 0 = some ("feed", -12, false)))) =
      some (true, true) := by
    decide +kernel
  obtain ⟨t, ht, hfacts⟩ := Option.map_eq_some_iff.mp hrun
  simp only [Prod.mk.injEq, decide_eq_true_eq] at hfacts
  obtain ⟨hnow, hdelivered⟩ := hfacts
  obtain ⟨c, keys, l, v, hf, hv, _, hobserved, hstale⟩ := delivered_some hdelivered
  refine ⟨t, c, keys, l, v, execOf_run ht, hf, hv, hobserved, hstale, ?_⟩
  rintro ⟨hlabel, _⟩
  rw [hstale, hobserved, hnow] at hlabel
  have hlt : (feedBuilder.policyFor 0).ttlSeconds < ((0 - -12 : ℚ) : WithTop ℚ) := by
    decide +kernel
  exact Bool.false_ne_true (hlabel.mpr hlt)

end Coalestra
