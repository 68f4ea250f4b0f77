import Coalestra.Orchestration.SourceChain

/-! # Stages of a key

A source loop offers its keys to one source after another and reads the attempts. For one session
every key stands at one of a few stages: in the queue of a loop, in a unit of work of a loop, or in
the memo. A move takes a key at most one stage on, and starts a unit of work for it at one of them. -/

namespace Coalestra
set_option autoImplicit false
set_option maxHeartbeats 250000

section
variable {K V : Type} [DecidableEq K]

/-! ## Offered keys -/

/-- The keys that a source loop has offered to a source and has not read an attempt of. -/
def OwnedPhase.offered : OwnedPhase K V → List K
  | .attempting _ _ chosen _ _ => chosen
  | .harvesting _ _ _ rest _ => rest
  | _ => []

/-- The offered keys that no unit of work has been started for. -/
def OwnedPhase.queued : OwnedPhase K V → List K
  | .attempting _ _ _ queue _ => queue.flatten
  | _ => []

/-- The keys whose attempts a source loop has gathered and not read. -/
def OwnedPhase.unread : OwnedPhase K V → List K
  | .harvesting _ _ _ rest _ => rest
  | _ => []

def Body.offered : Body K V → List K
  | .resolveOwned _ _ p => p.offered
  | _ => []

def Body.queued : Body K V → List K
  | .resolveOwned _ _ p => p.queued
  | _ => []

/-- The keys that a source loop offers to the next source when it moves on. -/
def Frame.choosing (s : State K V) (f : Frame K V) : List K :=
  match f.body with
  | .resolveOwned _ l (.visiting (source :: _)) => Builder.candidates source (consideredKeys
      (s.runtime f.scope.runtime) source (Builder.visit (s.runtime f.scope.runtime) l))
  | _ => []

/-- A unit of work, which calls its source once for all of its keys, has `key` among them. -/
def Call.asksFor (key : K) : Call K → Bool
  | .work _ keys => decide (key ∈ keys)
  | _ => false

/-- How many units of work runtime `r` has started for `key`. -/
def State.units (s : State K V) (r : ℕ) (key : K) : ℕ :=
  s.frames.countP fun f => decide (f.scope.runtime = r) && f.body.call.asksFor key

/-- A unit of work for `key` has called its source. -/
def State.Worked (s : State K V) (r : ℕ) (key : K) : Prop :=
  ∃ i c source keys attempts, s.frame? i = some ⟨c, .work source keys (.done attempts)⟩ ∧
    c.runtime = r ∧ key ∈ keys

/-- Loop `i` of runtime `r` has `key` in its queue. -/
def State.Queues (s : State K V) (r i : ℕ) (key : K) : Prop :=
  ∃ f, s.frame? i = some f ∧ f.scope.runtime = r ∧ key ∈ f.body.queued

/-- Loop `i` of runtime `r` has started a unit of work for `key` and has not read its attempt. -/
def State.Awaited (s : State K V) (r i : ℕ) (key : K) : Prop :=
  ∃ f, s.frame? i = some f ∧ f.scope.runtime = r ∧ key ∈ f.body.offered ∧ key ∉ f.body.queued

/-! ## Undisturbed steps -/

/-- The cache lookup that `_resolve_many` serves next is due for a background refresh. -/
def Builder.refreshDue (b : Builder K V) : Body K V → Bool
  | .resolveMany _ _ (.serving ((key, lookup) :: _)) => lookup.value.isSome &&
      if lookup.fresh then lookup.ageSeconds.any (b.policyFor key).shouldRefreshAhead
      else lookup.usableStale && decide ((b.policyFor key).refreshMode = .staleWhileRevalidate)
  | _ => false

/-- Nothing but the coroutines and the clock moves, and every attempt that is read gives a fresh
value. -/
structure FaultFree (b : Builder K V) (s : State K V) (l : Label K V) : Prop where
  own : (∃ i e, l = .run i e) ∨ ∃ now, l = .tick now
  fresh : ∀ i c keys lo source sources attempts k rest accepted a, l = .run i .go →
    s.frame? i = some ⟨c, .resolveOwned keys lo (.harvesting source sources attempts (k :: rest)
      accepted)⟩ → Dict.find attempts k = some a →
    ∃ v versions, b.harvest s.now s.revisions.length source k a = .fresh v versions

/-- A source loop offers a source only keys that no other loop of its session has offered to one. -/
def OffersAlone (s : State K V) (l : Label K V) : Prop :=
  ∀ i f k j g, l = .run i .go → s.frame? i = some f → k ∈ f.choosing s → s.frame? j = some g →
    g.scope.runtime = f.scope.runtime → k ∉ g.body.offered

/-- No cached value that is served is due for a background refresh. -/
def ServesUndue (b : Builder K V) (s : State K V) (l : Label K V) : Prop :=
  ∀ i f, l = .run i .go → s.frame? i = some f → b.refreshDue f.body = false

structure StepsOnce (b : Builder K V) (s : State K V) (l : Label K V) : Prop where
  faults : FaultFree b s l
  alone : OffersAlone s l
  undue : ServesUndue b s l

/-! ## Stages -/

/-- How far the acquisition of a key has come: the session had it before, no loop has offered it, it
is in the queue of a loop, in a unit of work of a loop, or in the memo. -/
inductive KeyStage
  | kept
  | idle
  | queued (loop : ℕ)
  | awaited (loop : ℕ)
  | acquired

/-- The units of work that a key at this stage has had. -/
def KeyStage.units : KeyStage → ℕ
  | .awaited _ | .acquired => 1
  | _ => 0

def KeyStage.remembered : KeyStage → Bool
  | .kept | .acquired => true
  | _ => false

/-- `stage` says where every key of runtime `r` stands; `r₀` is the runtime as it was opened. -/
structure Follows (r₀ : ResolutionRuntime K V) (r : ℕ) (s : State K V) (stage : K → KeyStage) :
    Prop where
  kept : ∀ k, stage k = .kept ↔ (r₀.memo.get? k).isSome
  memo : ∀ k, ((s.runtime r).memo.get? k).isSome = (stage k).remembered
  units : ∀ k, s.units r k = (stage k).units
  queued : ∀ k i, stage k = .queued i ↔ s.Queues r i k
  awaited : ∀ k i, stage k = .awaited i ↔ s.Awaited r i k
  worked : ∀ k, stage k = .acquired → s.Worked r k

variable {b : Builder K V} {s t : State K V} {c : Scope K} {body : Body K V} {e : Event K V}
  {m : Step K V} {l : Label K V} {r i : ℕ} {r₀ : ResolutionRuntime K V}

/-- A frame that moves is counted as before. -/
theorem units_apply {f : Frame K V} (hf : s.frame? i = some f)
    (hm : Move b s f.scope f.body e m) (r : ℕ) (k : K) : (s.apply i f m).units r k =
      s.units r k + (m.spawn.toList.countP fun g =>
        decide (g.scope.runtime = r) && g.body.call.asksFor k) := by
  unfold State.units State.apply
  dsimp only
  rw [List.countP_append]
  have hset := countP_set_add (fun g : Frame K V => decide (g.scope.runtime = r) &&
    g.body.call.asksFor k) { f with body := m.body } hf
  dsimp only at hset
  rw [hm.call] at hset
  omega

/-- A finished unit of work stays. -/
theorem State.Worked.apply {f : Frame K V} (hf : s.frame? i = some f)
    (hm : Move b s f.scope f.body e m) {k : K} (h : s.Worked r k) : (s.apply i f m).Worked r k := by
  obtain ⟨j, cw, source, keys, attempts, hj, hr, hk⟩ := h
  refine ⟨j, cw, source, keys, attempts, ?_, hr, hk⟩
  refine frame?_apply_other m hf hj ?_
  rintro rfl
  rw [hf, Option.some.injEq] at hj
  have hopen := hm.unfinished
  rw [hj] at hopen
  cases hopen

/-- What a started frame has offered: nothing. -/
theorem Move.spawn_offered (hm : Move b s c body e m) {g : Frame K V} (hg : m.spawn = some g) :
    g.body.offered = [] ∧ g.body.queued = [] := by
  cases hm with
  | many hm =>
    cases hm with
    | delegate =>
      cases hg
      exact ⟨rfl, rfl⟩
    | hit =>
      rw [schedule_spawn hg]
      exact ⟨rfl, rfl⟩
    | reserve =>
      obtain ⟨owned, _, _, rfl⟩ := reserve_spawn_eq hg
      exact ⟨rfl, rfl⟩
    | _ => cases hg
  | owned hm =>
    cases hm with
    | dispatch =>
      cases hg
      exact ⟨rfl, rfl⟩
    | _ => cases hg
  | work hm =>
    cases hm with
    | depend =>
      cases hg
      exact ⟨rfl, rfl⟩
    | _ => cases hg
  | produce hm =>
    cases hm with
    | start =>
      cases hg
      exact ⟨rfl, rfl⟩
    | _ => cases hg
  | refresh hm =>
    cases hm with
    | reserve =>
      obtain ⟨owned, _, _, rfl⟩ := reserve_spawn_eq hg
      exact ⟨rfl, rfl⟩
    | _ => cases hg

theorem queues_apply {f : Frame K V} (hf : s.frame? i = some f)
    (hm : Move b s f.scope f.body e m) (hr : f.scope.runtime = r) (j : ℕ) (k : K) :
    (s.apply i f m).Queues r j k ↔ j = i ∧ k ∈ m.body.queued ∨ j ≠ i ∧ s.Queues r j k := by
  constructor
  · rintro ⟨g, hg, hgr, hk⟩
    rcases frame?_apply_cases hf hg with ⟨rfl, rfl⟩ | ⟨_, hsp⟩ | ⟨hne, hg⟩
    · exact .inl ⟨rfl, hk⟩
    · rw [(hm.spawn_offered hsp).2] at hk
      cases hk
    · exact .inr ⟨hne, g, hg, hgr, hk⟩
  · rintro (⟨rfl, hk⟩ | ⟨hne, g, hg, hgr, hk⟩)
    · exact ⟨_, frame?_apply_self m hf, hr, hk⟩
    · exact ⟨g, frame?_apply_other m hf hg hne, hgr, hk⟩

theorem awaited_apply {f : Frame K V} (hf : s.frame? i = some f)
    (hm : Move b s f.scope f.body e m) (hr : f.scope.runtime = r) (j : ℕ) (k : K) :
    (s.apply i f m).Awaited r j k ↔
      j = i ∧ k ∈ m.body.offered ∧ k ∉ m.body.queued ∨ j ≠ i ∧ s.Awaited r j k := by
  constructor
  · rintro ⟨g, hg, hgr, hk⟩
    rcases frame?_apply_cases hf hg with ⟨rfl, rfl⟩ | ⟨_, hsp⟩ | ⟨hne, hg⟩
    · exact .inl ⟨rfl, hk⟩
    · rw [(hm.spawn_offered hsp).1] at hk
      cases hk.1
    · exact .inr ⟨hne, g, hg, hgr, hk⟩
  · rintro (⟨rfl, hk⟩ | ⟨hne, g, hg, hgr, hk⟩)
    · exact ⟨_, frame?_apply_self m hf, hr, hk⟩
    · exact ⟨g, frame?_apply_other m hf hg hne, hgr, hk⟩

theorem queues_self {f : Frame K V} (hf : s.frame? i = some f) (hr : f.scope.runtime = r) (k : K) :
    s.Queues r i k ↔ k ∈ f.body.queued := by
  constructor
  · rintro ⟨g, hg, _, hk⟩
    rw [hf, Option.some.injEq] at hg
    rwa [hg]
  · exact fun hk => ⟨f, hf, hr, hk⟩

theorem awaited_self {f : Frame K V} (hf : s.frame? i = some f) (hr : f.scope.runtime = r) (k : K) :
    s.Awaited r i k ↔ k ∈ f.body.offered ∧ k ∉ f.body.queued := by
  constructor
  · rintro ⟨g, hg, _, hk⟩
    rw [hf, Option.some.injEq] at hg
    rwa [hg]
  · exact fun hk => ⟨f, hf, hr, hk⟩

/-- What a move of loop `i` does for one key. -/
inductive KeyMove (s : State K V) (r i : ℕ) (f : Frame K V) (m : Step K V) (k : K) :
    KeyStage → KeyStage → Prop
  | stay {x : KeyStage} (hoffered : k ∈ m.body.offered ↔ k ∈ f.body.offered)
      (hqueued : k ∈ m.body.queued ↔ k ∈ f.body.queued)
      (hspawn : ∀ g, m.spawn = some g → g.body.call.asksFor k = false)
      (hmemo : ((m.shared.runtime r).memo.get? k).isSome =
        ((s.runtime r).memo.get? k).isSome) : KeyMove s r i f m k x x
  | offer (hqueued : k ∈ m.body.queued) (hspawn : m.spawn = none)
      (hmemo : m.shared = s.toShared) : KeyMove s r i f m k .idle (.queued i)
  | start {g : Frame K V} (hoffered : k ∈ m.body.offered) (hqueued : k ∉ m.body.queued)
      (hspawn : m.spawn = some g) (hr : g.scope.runtime = r)
      (hasks : g.body.call.asksFor k = true) (hmemo : m.shared = s.toShared) :
      KeyMove s r i f m k (.queued i) (.awaited i)
  | accept (hoffered : k ∉ m.body.offered) (hqueued : k ∉ m.body.queued) (hspawn : m.spawn = none)
      (hmemo : ((m.shared.runtime r).memo.get? k).isSome) (hworked : s.Worked r k) :
      KeyMove s r i f m k (.awaited i) .acquired

/-- If a move takes every key from stage to stage, the stages can be followed across it. -/
theorem Follows.move {f : Frame K V} {stage : K → KeyStage} (h : Follows r₀ r s stage)
    (hf : s.frame? i = some f) (hm : Move b s f.scope f.body e m) (hr : f.scope.runtime = r)
    (hkeys : ∀ k, ∃ x, KeyMove s r i f m k (stage k) x) :
    ∃ stage', Follows r₀ r (s.apply i f m) stage' := by
  choose stage' hstage using hkeys
  have hqueued : ∀ k, stage k = .queued i ↔ k ∈ f.body.queued :=
    fun k => (h.queued k i).trans (queues_self hf hr k)
  have hawaited : ∀ k, stage k = .awaited i ↔ k ∈ f.body.offered ∧ k ∉ f.body.queued :=
    fun k => (h.awaited k i).trans (awaited_self hf hr k)
  refine ⟨stage', ?_, ?_, ?_, ?_, ?_, ?_⟩
  · intro k
    have hkept := h.kept k
    generalize hx : stage k = x at hkept
    generalize hy : stage' k = y
    have hk := hstage k
    rw [hx, hy] at hk
    cases hk with
    | stay => exact hkept
    | offer => simpa using hkept
    | start => simpa using hkept
    | accept => simpa using hkept
  · intro k
    show ((m.shared.runtime r).memo.get? k).isSome = _
    have hmemo := h.memo k
    generalize hx : stage k = x at hmemo
    generalize hy : stage' k = y
    have hk := hstage k
    rw [hx, hy] at hk
    cases hk with
    | stay _ _ _ hsame => exact hsame.trans hmemo
    | offer _ _ hsame =>
      rw [hsame]
      exact hmemo
    | start _ _ _ _ _ hsame =>
      rw [hsame]
      exact hmemo
    | accept _ _ _ hnew => exact hnew
  · intro k
    have hunits := h.units k
    rw [units_apply hf hm]
    generalize hx : stage k = x at hunits
    generalize hy : stage' k = y
    have hk := hstage k
    rw [hx, hy] at hk
    cases hk with
    | stay _ _ hspawn =>
      rw [hunits]
      cases hg : m.spawn with
      | none => rfl
      | some g => simp [hspawn g hg]
    | offer _ hspawn =>
      rw [hunits, hspawn]
      rfl
    | start _ _ hspawn hgr hasks =>
      rw [hunits, hspawn]
      simp [hgr, hasks, KeyStage.units]
    | accept _ _ hspawn =>
      rw [hunits, hspawn]
      rfl
  · intro k j
    rw [queues_apply hf hm hr, ← h.queued]
    have hself := hqueued k
    generalize hx : stage k = x at hself
    generalize hy : stage' k = y
    have hk := hstage k
    rw [hx, hy] at hk
    by_cases hj : j = i
    · subst hj
      cases hk with
      | stay _ hsame => simp [hsame, hself]
      | offer hmem => simp [hmem]
      | start _ hnot => simp [hnot]
      | accept _ hnot => simp [hnot]
    · have hji : ¬ i = j := fun hij => hj hij.symm
      cases hk <;> simp [hj, hji]
  · intro k j
    rw [awaited_apply hf hm hr, ← h.awaited]
    have hself := hawaited k
    generalize hx : stage k = x at hself
    generalize hy : stage' k = y
    have hk := hstage k
    rw [hx, hy] at hk
    by_cases hj : j = i
    · subst hj
      cases hk with
      | stay hsame hsame' => simp [hsame, hsame', hself]
      | offer hmem => simp [hmem]
      | start hmem hnot => simp [hmem, hnot]
      | accept hnot => simp [hnot]
    · have hji : ¬ i = j := fun hij => hj hij.symm
      cases hk <;> simp [hj, hji]
  · intro k hacquired
    have hworked := h.worked k
    generalize hx : stage k = x at hworked
    have hk := hstage k
    rw [hx, hacquired] at hk
    cases hk with
    | stay => exact (hworked rfl).apply hf hm
    | accept _ _ _ _ hw => exact hw.apply hf hm

/-! ## Source loops -/

/-- A source loop of the resolution: no key twice, nothing stale kept, and every attempt that waits
to be read comes from a finished unit of work. -/
structure LoopHolds (s : State K V) (r : ℕ) (l : OwnedLocals K V) (p : OwnedPhase K V) : Prop where
  unresolved : l.unresolved.Nodup
  stale : ∀ k, l.bestStale.get? k = none
  offered : p.offered.Nodup
  queued : p.queued.Nodup
  waiting : ∀ k ∈ p.queued, k ∈ p.offered
  worked : ∀ k ∈ p.unread, s.Worked r k

/-- The next attempt that a source loop reads is there and gives a fresh value. -/
def ReadsFresh (b : Builder K V) (s : State K V) (p : OwnedPhase K V) : Prop :=
  ∀ source sources attempts k rest accepted,
    p = .harvesting source sources attempts (k :: rest) accepted → ∃ a v versions,
      Dict.find attempts k = some a ∧
        b.harvest s.now s.revisions.length source k a = .fresh v versions

/-- A loop that has offered nothing. -/
theorem LoopHolds.idle {lo : OwnedLocals K V} {p : OwnedPhase K V} (hu : lo.unresolved.Nodup)
    (hs : ∀ k, lo.bestStale.get? k = none) (ho : p.offered = []) (hq : p.queued = [])
    (hp : p.unread = []) : LoopHolds s r lo p := by
  refine ⟨hu, hs, ?_, ?_, ?_, ?_⟩
  · rw [ho]
    exact .nil
  · rw [hq]
    exact .nil
  · intro k hk
    rw [hq] at hk
    cases hk
  · intro k hk
    rw [hp] at hk
    cases hk

theorem LoopHolds.mono {lo : OwnedLocals K V} {p : OwnedPhase K V} (h : LoopHolds s r lo p)
    (hmono : ∀ k, s.Worked r k → t.Worked r k) : LoopHolds t r lo p :=
  ⟨h.unresolved, h.stale, h.offered, h.queued, h.waiting, fun k hk => hmono k (h.worked k hk)⟩

/-- A turn of the source loop keeps the loop in order. -/
theorem OwnedMove.loopHolds {keys : List K} {lo : OwnedLocals K V} {p : OwnedPhase K V}
    (hm : OwnedMove b s c keys lo p e m) (hreads : ReadsFresh b s p)
    (hgather : ∀ source sources chosen children,
      p = .attempting source sources chosen [] children →
      (∀ j ∈ children, (s.workOutcome j).isSome) → ∀ k ∈ chosen, s.Worked r k)
    (hmono : ∀ k, s.Worked r k → t.Worked r k) (h : LoopHolds s r lo p) :
    ∃ lo' p', m.body = .resolveOwned keys lo' p' ∧ LoopHolds t r lo' p' := by
  have hvisit : (Builder.visit (s.runtime c.runtime) lo).unresolved.Nodup := h.unresolved.filter _
  have hconsider : ∀ source ks, (Builder.consider source (Builder.visit (s.runtime c.runtime) lo)
      ks).unresolved.Nodup ∧ ∀ k, (Builder.consider source (Builder.visit (s.runtime c.runtime) lo)
      ks).bestStale.get? k = none := by
    intro source ks
    rw [unresolved_consider, bestStale_consider]
    exact ⟨hvisit, h.stale⟩
  cases hm with
  | exhausted =>
    refine ⟨_, _, rfl, ?_⟩
    exact .idle h.unresolved h.stale rfl rfl rfl
  | settled =>
    refine ⟨_, _, rfl, ?_⟩
    exact .idle hvisit h.stale rfl rfl rfl
  | skip hl =>
    subst hl
    refine ⟨_, _, rfl, ?_⟩
    exact .idle (hconsider _ _).1 (hconsider _ _).2 rfl rfl rfl
  | @attempt source sources l₁ chosen hl hc =>
    subst hl
    have hnodup : chosen.Nodup := by
      rw [hc]
      exact (hvisit.filter _).filter _
    refine ⟨_, _, rfl, (hconsider _ _).1, (hconsider _ _).2, hnodup, ?_, ?_, ?_⟩
    · rw [OwnedPhase.queued, source.flatten_items]
      exact hnodup
    · rw [OwnedPhase.queued, source.flatten_items]
      exact fun k hk => hk
    · intro k hk
      cases hk
  | @dispatch source sources chosen item queue children =>
    have hq := h.queued
    have hw := h.waiting
    rw [OwnedPhase.queued, List.flatten_cons] at hq hw
    refine ⟨_, _, rfl, h.unresolved, h.stale, h.offered, (List.nodup_append.mp hq).2.1,
      fun k hk => hw k (List.mem_append_right _ hk), ?_⟩
    intro k hk
    cases hk
  | @gather source sources chosen children hc =>
    refine ⟨_, _, rfl, h.unresolved, h.stale, h.offered, .nil, ?_, ?_⟩
    · intro k hk
      cases hk
    · exact fun k hk => hmono k (hgather _ _ _ _ rfl hc k hk)
  | harvestMissing ha =>
    obtain ⟨a, v, versions, hfind, _⟩ := hreads _ _ _ _ _ _ rfl
    rw [ha] at hfind
    cases hfind
  | refuse ha hh =>
    obtain ⟨a, v, versions, hfind, hfresh⟩ := hreads _ _ _ _ _ _ rfl
    rw [ha] at hfind
    cases hfind
    rw [hh] at hfresh
    cases hfresh
  | keep ha hh =>
    obtain ⟨a, v, versions, hfind, hfresh⟩ := hreads _ _ _ _ _ _ rfl
    rw [ha] at hfind
    cases hfind
    rw [hh] at hfresh
    cases hfresh
  | accept =>
    refine ⟨_, _, rfl, h.unresolved, h.stale, (List.nodup_cons.mp h.offered).2, .nil, ?_, ?_⟩
    · intro k hk
      cases hk
    · exact fun k hk => hmono k (h.worked k (List.mem_cons_of_mem _ hk))
  | publish =>
    refine ⟨_, _, rfl, ?_⟩
    exact .idle h.unresolved h.stale rfl rfl rfl
  | harvested =>
    refine ⟨_, _, rfl, ?_⟩
    exact .idle (h.unresolved.filter _) h.stale rfl rfl rfl
  | write =>
    refine ⟨_, _, rfl, ?_⟩
    exact .idle h.unresolved h.stale rfl rfl rfl
  | wrote =>
    refine ⟨_, _, rfl, ?_⟩
    exact .idle h.unresolved h.stale rfl rfl rfl
  | superseded =>
    refine ⟨_, _, rfl, ?_⟩
    exact .idle (h.unresolved.filter _) h.stale rfl rfl rfl
  | supersede =>
    refine ⟨_, _, rfl, ?_⟩
    exact .idle h.unresolved h.stale rfl rfl rfl
  | installWinner =>
    refine ⟨_, _, rfl, ?_⟩
    exact .idle h.unresolved h.stale rfl rfl rfl
  | finishStale =>
    refine ⟨_, _, rfl, ?_⟩
    exact .idle h.unresolved h.stale rfl rfl rfl
  | finishError =>
    refine ⟨_, _, rfl, ?_⟩
    exact .idle h.unresolved h.stale rfl rfl rfl
  | publishStale =>
    refine ⟨_, _, rfl, ?_⟩
    exact .idle h.unresolved h.stale rfl rfl rfl
  | finished =>
    refine ⟨_, _, rfl, ?_⟩
    exact .idle h.unresolved h.stale rfl rfl rfl
  | writeStale =>
    refine ⟨_, _, rfl, ?_⟩
    exact .idle h.unresolved h.stale rfl rfl rfl
  | wroteStale =>
    refine ⟨_, _, rfl, ?_⟩
    exact .idle h.unresolved h.stale rfl rfl rfl
  | interrupt =>
    refine ⟨_, _, rfl, ?_⟩
    exact .idle h.unresolved h.stale rfl rfl rfl

/-- Once every unit of work of a loop has returned, every offered key has been worked on. -/
theorem worked_of_gathered (hshape : Shape b s) (hw : s.Whole) {keys : List K}
    {lo : OwnedLocals K V} {source : Source K} {sources : List (Source K)} {chosen : List K}
    {children : List ℕ}
    (hf : s.frame? i =
      some ⟨c, .resolveOwned keys lo (.attempting source sources chosen [] children)⟩)
    (hc : ∀ j ∈ children, (s.workOutcome j).isSome) {k : K} (hk : k ∈ chosen) :
    s.Worked c.runtime k := by
  rcases (hw i _ hf).2.2 k hk with ⟨item, hitem, _⟩ | ⟨child, hchild, cw, src, ks, hcalled, hks⟩
  · cases hitem
  · obtain ⟨attempts, ho⟩ := Option.isSome_iff_exists.mp (hc child hchild)
    obtain ⟨c', source', keys', hframe⟩ := workOutcome_some ho
    obtain ⟨_, ks', hcalled'⟩ := (hshape.frames i _ hf).body.2.2.2.2 child hchild
    have hself : s.Called child c' (.work source' keys') := ⟨_, hframe, rfl, rfl⟩
    obtain ⟨_, hcall⟩ := hself.unique hcalled
    obtain ⟨hscope, _⟩ := hself.unique hcalled'
    rw [Call.work.injEq] at hcall
    exact ⟨child, c', source', keys', attempts, hframe, by rw [hscope], by rw [hcall.2]; exact hks⟩

end
end Coalestra
