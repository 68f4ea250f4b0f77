import Coalestra.Orchestration.LaterCalls
import Coalestra.Orchestration.Pinning

/-! # Forced refreshes

A session together with the builder that runs its revalidations. `revalidate(force_refresh=True)`
resolves its targets in a staging runtime that forces every affected key, and the consistency
fallback does so again. Where no flight from before is joined and no cached value supersedes a
result, every target is committed with a value of a source call that began after the call did. -/

namespace Coalestra
set_option autoImplicit false
set_option maxHeartbeats 250000

section
variable {K V : Type} [DecidableEq K]

/-! ## The runtimes of a revalidation -/

/-- `staging_runtime` of `revalidate`. -/
def RevalidateCall.runtime (c : RevalidateCall K V) (memo : Dict K (SnapshotValue K V)) :
    ResolutionRuntime K V where
  memo := memo.filter fun k => decide (k ∉ c.affected)
  cacheStaleResults := !c.forceRefresh
  forceRefreshKeys := if c.forceRefresh then c.affected else []
  excludedSources := .empty
  cacheSourceResults := true

/-- `retry_runtime` of `_retry_inconsistent_sources`: every source attempted so far is excluded for
the key it was too old for. -/
def RetryState.runtime (r : RetryState K V) : ResolutionRuntime K V where
  memo := r.memo.filter fun k => decide (k ∉ affectedKeysFromMemo [r.oldestKey] r.memo)
  cacheStaleResults := false
  forceRefreshKeys := affectedKeysFromMemo [r.oldestKey] r.memo
  excludedSources := r.attempted.foldl
    (fun d e => d.set e.1 ((d.get? e.1).getD [] ++ [e.2])) .empty
  cacheSourceResults := false

/-! ## A session on its builder -/

/-- A session with its builder. `staged` is the runtime and the coroutine of the `_resolve_many`
call that the revalidation awaits. -/
structure SnapshotSession (K V : Type) [DecidableEq K] where
  session : Session K V
  builder : Traced K V
  deadline : Option ℚ
  staged : Option (ℕ × ℕ)

/-- What happens next: the builder takes a step, the session does on its own, or it receives what
the awaited `_resolve_many` call returned. -/
inductive SnapshotSessionLabel (K V : Type) [DecidableEq K]
  | builder (l : Label K V)
  | session (e : SessionEvent K V)
  | resolved (leftovers : List K)

/-- What `_resolve_many` returned for `keys`, once its values and errors cover them. -/
def ResolveOutcome.of (keys : List K) (values : Dict K (SnapshotValue K V))
    (errors : Dict K (Error K)) (memo : Dict K (SnapshotValue K V)) :
    Option (ResolveOutcome K V) :=
  if h : (∀ k ∈ keys, k ∈ values.keys ∨ k ∈ errors.keys) ∧
      (∀ k ∈ values.keys, k ∈ keys ∧ k ∉ errors.keys) ∧ ∀ k ∈ errors.keys, k ∈ keys then
    some ⟨keys, values, errors, memo,
      fun k => ⟨h.1 k, fun hk => hk.elim (fun hk => (h.2.1 k hk).1) (h.2.2 k)⟩,
      fun k hk => (h.2.1 k hk).2⟩
  else none

namespace SnapshotSession

/-- The revalidation that awaits a `_resolve_many` call, with the keys of this call. -/
def awaiting (S : SnapshotSession K V) : Option (RevalidateCall K V × List K) :=
  match S.session.phase with
  | some (.staging c) => some (c, c.targets)
  | some (.retrying c r) => some (c, r.targets)
  | _ => none

/-- What the awaited call returned, with the memo of its runtime. -/
def outcome (S : SnapshotSession K V) : Option (ResolveOutcome K V) :=
  S.awaiting.bind fun call => S.staged.bind fun at' =>
    match S.builder.manyOutcome at'.2 with
    | some (.ok (values, errors)) =>
      ResolveOutcome.of call.2 values errors (S.builder.runtime at'.1).memo
    | _ => none

/-- `_resolve_many` is called for `targets` in a new runtime. -/
def await (b : Builder K V) (S : SnapshotSession K V) (runtime : ResolutionRuntime K V)
    (targets : List K) : Option (SnapshotSession K V) :=
  (b.tracedStep S.builder (.openRuntime runtime)).bind fun T =>
    (b.tracedStep T (.call S.builder.runtimes.length S.deadline targets)).map fun U =>
      { S with builder := U, staged := some (S.builder.runtimes.length, T.frames.length) }

/-- A session resolves on its own, apart from its revalidations. -/
def step (b : Builder K V) (S : SnapshotSession K V) :
    SnapshotSessionLabel K V → Option (SnapshotSession K V)
  | .builder l => (b.tracedStep S.builder l).map fun T => { S with builder := T }
  | .session (.revalidate keys strict forceRefresh p q) =>
    (sessionStep S.session (.revalidate keys strict forceRefresh p q)).bind fun s =>
      match s.phase with
      | some (.staging c) => ({ S with session := s }).await b (c.runtime s.memo) c.targets
      | _ => some { S with session := s }
  | .session (.resolved o leftovers) =>
    if S.awaiting.isNone then
      (sessionStep S.session (.resolved o leftovers)).map fun s => { S with session := s }
    else none
  | .session e => (sessionStep S.session e).map fun s => { S with session := s }
  | .resolved leftovers => S.outcome.bind fun o =>
    (sessionStep S.session (.resolved o leftovers)).bind fun s =>
      match s.phase with
      | some (.retrying _ r) => ({ S with session := s }).await b r.runtime r.targets
      | _ => some { S with session := s }

end SnapshotSession

/-! ## Keys that no lookup takes to the cache -/

/-- What `_resolve_many` returns, the memo of its runtime has. -/
def Memoized (s : State K V) : Prop :=
  ∀ i c keys l p k v, s.frame? i = some ⟨c, .resolveMany keys l p⟩ → l.values.get? k = some v →
    ∃ w, (s.runtime c.runtime).memo.get? k = some w

variable {b : Builder K V} {T T₀ U : Traced K V} {l : Label K V} {key : K} {r : ℕ}

/-- A move of `_resolve_many` returns what it stores, and what the memo had pinned. -/
theorem ManyMove.memoized {s : State K V} {c : Scope K} {keys : List K} {lo : ManyLocals K V}
    {p : ManyPhase K V} {e : Event K V} {m : Step K V} (hm : ManyMove b s c keys lo p e m)
    (hr : c.runtime < s.runtimes.length)
    (hold : ∀ k v, lo.values.get? k = some v → ∃ w, (s.runtime c.runtime).memo.get? k = some w)
    (hgrow : ∀ k, (∃ w, (s.runtime c.runtime).memo.get? k = some w) →
      ∃ w, (m.shared.runtime c.runtime).memo.get? k = some w)
    {keys' : List K} {lo' : ManyLocals K V} {p' : ManyPhase K V} {k : K} {v : SnapshotValue K V}
    (hbody : m.body = .resolveMany keys' lo' p') (hv : lo'.values.get? k = some v) :
    ∃ w, (m.shared.runtime c.runtime).memo.get? k = some w := by
  have hkeep : lo'.values = lo.values → ∃ w, (m.shared.runtime c.runtime).memo.get? k = some w := by
    intro heq
    rw [heq] at hv
    exact hgrow k (hold k v hv)
  have hstore : ∀ {key copy}, e = .go → Installs b s (.resolveMany keys lo p) key copy →
      lo'.values = lo.values.set key copy →
      ∃ w, (m.shared.runtime c.runtime).memo.get? k = some w := by
    rintro key copy rfl hi heq
    rw [heq] at hv
    rcases Dict.get?_set_cases hv with ⟨rfl, _⟩ | hv
    · exact ⟨copy, hm.stored hi hr⟩
    · exact hgrow k (hold k v hv)
  cases hm with
  | start =>
    cases hbody
    rw [Dict.get?_comprehend] at hv
    split at hv
    · exact hgrow k ⟨v, (ResolutionRuntime.pinned_eq_some.mp hv).2⟩
    · cases hv
  | install =>
    cases hbody
    exact hstore rfl (.copied rfl) rfl
  | fallBack =>
    cases hbody
    exact hstore rfl (.copied rfl) rfl
  | collectValue hres =>
    cases hbody
    exact hstore rfl (.collected hres) rfl
  | _ =>
    cases hbody
    exact hkeep rfl

theorem Stepped.memoized {s t : State K V} (h : Stepped b s l t) (hopen : RuntimesOpen s)
    (hs : Memoized s) : Memoized t := by
  intro i c keys lo p k v hi hv
  cases h.came hi with
  | @moved e g m hg hm ht hf =>
    rw [Frame.mk.injEq] at hf
    obtain ⟨hscope, hbody⟩ := hf
    obtain ⟨c', body⟩ := g
    dsimp only at hscope
    subst hscope
    have hgrow : ∀ k, (∃ w, (s.runtime c.runtime).memo.get? k = some w) →
        ∃ w, (m.shared.runtime c.runtime).memo.get? k = some w := by
      intro k hk
      have hgrown := h.memo_grows hk
      rw [ht] at hgrown
      exact hgrown
    rw [ht]
    cases hm with
    | many hm => exact hm.memoized (hopen i _ hg) (hs i c _ _ _ · · hg) hgrow hbody.symm hv
    | owned hm => cases hm <;> cases hbody
    | work hm => cases hm <;> cases hbody
    | produce hm => cases hm <;> cases hbody
    | refresh hm => cases hm <;> cases hbody
  | started _ hm _ _ hf =>
    have hstart : _ ∧ _ := hm.spawn_atStart hf
    rw [hstart.1] at hv
    cases hv
  | called _ hf =>
    cases hf
    cases hv
  | stayed _ hf => exact h.memo_grows (hs i c keys lo p k v hf hv)

/-- What every state satisfies once the builder has started. -/
structure Ready (b : Builder K V) (T₀ T : Traced K V) : Prop where
  recorded : Recorded T
  shape : Shape b T.toState
  runtimes : RuntimesOpen T.toState
  memoized : Memoized T.toState
  began : Began T
  later : T₀.frames.length ≤ T.frames.length
  issued : T₀.revisions.length ≤ T.revisions.length
  old : ∀ n, n < T₀.revisions.length → T.producers.get? n = T₀.producers.get? n

theorem Ready.step (hT : Ready b T₀ T) (h : b.tracedStep T l = some U) : Ready b T₀ U := by
  have hstep := tracedStep_stepped h
  exact ⟨hT.recorded.step h, hstep.shape hT.shape, hstep.runtimesOpen hT.runtimes,
    hstep.memoized hT.runtimes hT.memoized, hT.began.step h,
    le_trans hT.later hstep.frames_length, le_trans hT.issued hstep.revisions_length,
    fun n hn => (tracedStep_old h (lt_of_lt_of_le hn hT.issued)).trans (hT.old n hn)⟩

theorem Ready.here (hT : Ready b T₀ T) : Ready b T T :=
  ⟨hT.recorded, hT.shape, hT.runtimes, hT.memoized, hT.began, le_rfl, le_rfl, fun _ _ => rfl⟩

theorem ready_initial (now : ℚ) (cache : AsyncMemoryCache K V) (revisions : List (Dict K ℕ)) :
    Ready b (.initial now cache revisions) (.initial now cache revisions) := by
  have hframe : ∀ i, (Traced.initial now cache revisions : Traced K V).frame? i = none := by
    intro i
    simp [Traced.initial, State.initial, State.frame?]
  refine ⟨recorded_initial now cache revisions, shape_initial b now cache revisions, ?_, ?_,
    fun n w hn => (by cases hn), le_rfl, le_rfl, fun _ _ => rfl⟩
  · intro i f hf
    exact absurd (hframe i) (by simp [hf])
  · intro i c keys lo p k v hf
    exact absurd (hframe i) (by simp [hf])

/-- Runtime `r` takes in values of later source calls only, and none from the cache: it never looks
the key up there. -/
structure Acquiring (b : Builder K V) (T₀ : Traced K V) (key : K) (r : ℕ) (T : Traced K V) : Prop
    extends Watching b T₀ key r T where
  decides : (T.runtime r).Decides key
  reads : ∀ i c keys lo cacheKeys now,
    T.frame? i = some ⟨c, .resolveMany keys lo (.reading cacheKeys now)⟩ → c.runtime = r →
    key ∉ cacheKeys

theorem Acquiring.step (hT : Acquiring b T₀ key r T) (hl : JoinsSince T₀ key r T l)
    (h : b.tracedStep T l = some U) : Acquiring b T₀ key r U := by
  have hstep := tracedStep_stepped h
  have htakes : TakesSince T₀ key r T l :=
    ⟨hl, fun i c keys lo cacheKeys now v _ hf hr hk _ =>
      absurd hk (hT.reads i c keys lo cacheKeys now hf hr)⟩
  refine ⟨hT.toWatching.step htakes h, hstep.decides hT.decides, ?_⟩
  intro i c keys lo cacheKeys now hf hr
  cases hstep.came hf with
  | @moved e g m hg hm _ hbody =>
    rw [Frame.mk.injEq] at hbody
    obtain ⟨hscope, hbody⟩ := hbody
    obtain ⟨c', body⟩ := g
    dsimp only at hscope
    subst hscope
    cases hm with
    | many hm =>
      cases hm with
      | start =>
        rw [Body.resolveMany.injEq] at hbody
        have hp := hbody.2.2
        split at hp
        · cases hp
        · cases hp
          rw [hr]
          exact hT.decides.not_cached _
      | delegated =>
        rw [Body.resolveMany.injEq] at hbody
        have hp := hbody.2.2
        split at hp <;> cases hp
      | _ => cases hbody
    | owned hm => cases hm <;> cases hbody
    | work hm => cases hm <;> cases hbody
    | produce hm => cases hm <;> cases hbody
    | refresh hm => cases hm <;> cases hbody
  | started _ hm _ _ hf =>
    have hstart : _ ∧ _ := hm.spawn_atStart hf
    cases hstart.2
  | called _ hf => cases hf
  | stayed _ hf => exact hT.reads i c keys lo cacheKeys now hf hr

/-- Only moves take values in. -/
theorem joinsSince_idle (hl : ∀ i e, l ≠ .run i e) : JoinsSince T₀ key r T l :=
  ⟨fun _ _ _ h => absurd h (hl _ _), fun _ _ _ _ _ _ _ h => absurd h (hl _ _),
    fun _ _ _ _ _ _ _ _ h => absurd h (hl _ _)⟩

/-- A new runtime that decides the key, and has no value from before in its memo. -/
theorem acquiring_open (hT : Ready b T₀ T) {runtime : ResolutionRuntime K V}
    (hdecides : runtime.Decides key)
    (hmemo : ∀ v, runtime.memo.get? key = some v → T.Since T₀ v.version)
    (h : b.tracedStep T (.openRuntime runtime) = some U) :
    Acquiring b T₀ key T.runtimes.length U := by
  obtain ⟨hruntime, hwatch⟩ :=
    watching_open hT.recorded hT.shape hT.runtimes hT.later hmemo h
  refine ⟨hwatch, by rw [hruntime]; exact hdecides, ?_⟩
  intro i c keys lo cacheKeys now hf hr
  cases (tracedStep_stepped h).came hf with
  | stayed _ hf => exact absurd hr (Nat.ne_of_lt (hT.runtimes i _ hf))

/-! ## The awaited call -/

/-- The values of these keys come from later source calls. -/
def Traced.AllSince (T T₀ : Traced K V) (targets : List K) (d : Dict K (SnapshotValue K V)) :
    Prop :=
  ∀ k ∈ targets, ∀ v, d.get? k = some v → T.Since T₀ v.version

theorem Traced.AllSince.step (hr : Recorded T) (h : b.tracedStep T l = some U) {targets : List K}
    {d : Dict K (SnapshotValue K V)} (hT : T.AllSince T₀ targets d) : U.AllSince T₀ targets d :=
  fun k hk v hv => (hT k hk v hv).step hr h

theorem Traced.AllSince.update {targets : List K} {d d' : Dict K (SnapshotValue K V)}
    (h : T.AllSince T₀ targets d) (h' : T.AllSince T₀ targets d') :
    T.AllSince T₀ targets (d.update d') := by
  intro k hk v hv
  rcases Dict.get?_update_cases hv with hv | hv
  · exact h' k hk v hv
  · exact h k hk v hv

def Stocked (targets : List K) (memo : Dict K (SnapshotValue K V)) : Prop :=
  ∀ k ∈ targets, ∃ v, memo.get? k = some v

theorem frame?_call {runtime : ℕ} {deadline : Option ℚ} {keys : List K}
    (h : b.tracedStep T (.call runtime deadline keys) = some U) :
    U.frame? T.frames.length = some (callFrame runtime deadline keys) := by
  have hU := tracedStep_step h
  rw [Builder.step] at hU
  split at hU
  · rw [State.frame?, ← congrArg State.frames (Option.some.inj hU)]
    exact List.getElem?_concat_length
  · cases hU

namespace SnapshotSession
variable {S S' : SnapshotSession K V}

/-- The awaited call takes in values of later source calls only, and its runtime has or gets all of
`targets` once it returns `keys`. -/
def Staged (b : Builder K V) (T₀ : Traced K V) (targets keys : List K) (S : SnapshotSession K V) :
    Prop :=
  ∃ r i c call, S.staged = some (r, i) ∧ S.builder.Called i c call ∧ c.runtime = r ∧
    ∀ k ∈ targets, Acquiring b T₀ k r S.builder ∧
      (k ∈ keys ∨ ∃ v, (S.builder.runtime r).memo.get? k = some v)

theorem Staged.step {targets keys : List K} (hS : S.Staged b T₀ targets keys)
    (hl : ∀ r i, S.staged = some (r, i) → ∀ k ∈ targets, JoinsSince T₀ k r S.builder l)
    (h : b.tracedStep S.builder l = some U) :
    ({ S with builder := U } : SnapshotSession K V).Staged b T₀ targets keys := by
  obtain ⟨r, i, c, call, hst, hcalled, hr, htargets⟩ := hS
  have hstep := tracedStep_stepped h
  refine ⟨r, i, c, call, hst, hstep.called hcalled, hr, fun k hk => ?_⟩
  obtain ⟨hacq, hkeys⟩ := htargets k hk
  exact ⟨hacq.step (hl r i hst k hk) h, hkeys.imp_right hstep.memo_grows⟩

/-- A call in a runtime that decides all targets, and has no value from before. -/
theorem await_staged (hT : Ready b T₀ S.builder) {runtime : ResolutionRuntime K V}
    {targets keys : List K} (hdecides : ∀ k ∈ targets, runtime.Decides k)
    (hmemo : S.builder.AllSince T₀ targets runtime.memo)
    (hkeys : ∀ k ∈ targets, k ∈ keys ∨ ∃ v, runtime.memo.get? k = some v)
    (h : S.await b runtime keys = some S') :
    S'.session = S.session ∧ Ready b T₀ S'.builder ∧ S'.Staged b T₀ targets keys ∧
      ∀ d : Dict K (SnapshotValue K V), S.builder.AllSince T₀ targets d →
        S'.builder.AllSince T₀ targets d := by
  obtain ⟨T, hopen, h⟩ := Option.bind_eq_some_iff.mp h
  obtain ⟨U, hcall, rfl⟩ := Option.map_eq_some_iff.mp h
  have hT' := hT.step hopen
  refine ⟨rfl, hT'.step hcall, ?_, fun d hd => (hd.step hT.recorded hopen).step hT'.recorded hcall⟩
  refine ⟨_, _, ⟨S.deadline, S.builder.runtimes.length, [], [], none⟩, .many (Dict.fromKeys keys),
    rfl, ?_, rfl, fun k hk => ?_⟩
  · exact ⟨_, frame?_call hcall, rfl, rfl⟩
  · have hacq := acquiring_open hT (hdecides k hk) (hmemo k hk) hopen
    refine ⟨hacq.step (joinsSince_idle fun _ _ h => by cases h) hcall, (hkeys k hk).imp_right fun hv => ?_⟩
    have hruntime := (watching_open hT.recorded hT.shape hT.runtimes hT.later (hmemo k hk) hopen).1
    rw [← hruntime] at hv
    exact (tracedStep_stepped hcall).memo_grows hv

/-- What a returned call has, and that it leaves no target out of its memo. -/
theorem outcome_spec (hT : Ready b T₀ S.builder) {targets keys : List K}
    {c : RevalidateCall K V} {o : ResolveOutcome K V} (hS : S.Staged b T₀ targets keys)
    (hawait : S.awaiting = some (c, keys)) (h : S.outcome = some o) :
    S.builder.AllSince T₀ targets o.values ∧ S.builder.AllSince T₀ targets o.memo ∧
      (o.errors.entries = [] → Stocked targets o.memo) := by
  obtain ⟨r, i, cs, call, hst, ⟨f, hf, rfl, _⟩, hr, htargets⟩ := hS
  unfold outcome at h
  rw [hawait, hst] at h
  simp only [Option.bind_some] at h
  split at h
  · rename_i values errors hmany
    unfold ResolveOutcome.of at h
    split at h
    · rename_i hcovers
      cases h
      obtain ⟨c', keys', lo, p, hframe, rfl⟩ : ∃ c' keys' lo p,
          S.builder.frame? i = some ⟨c', .resolveMany keys' lo p⟩ ∧ lo.values = values := by
        unfold State.manyOutcome at hmany
        split at hmany
        · cases hmany
          exact ⟨_, _, _, _, ‹_›, rfl⟩
        · cases hmany
        · cases hmany
      rw [hframe, Option.some.injEq] at hf
      subst hf
      refine ⟨fun k hk v hv => ?_, fun k hk v hv => (htargets k hk).1.memo v hv, ?_⟩
      · exact ((htargets k hk).1.frames i _ hframe hr).values _ v hframe (.inl (.inl hv))
      · intro herrors k hk
        rcases (htargets k hk).2 with hkey | hmemo
        · rcases hcovers.1 k hkey with hvalue | herror
          · obtain ⟨v, hv⟩ := Dict.mem_keys.mp hvalue
            have hmemo := hT.memoized i c' keys' lo p k v hframe hv
            dsimp only at hr
            rwa [hr] at hmemo
          · dsimp only at herrors
            rw [Dict.keys, herrors] at herror
            cases herror
        · exact hmemo
    · cases h
  · cases h

end SnapshotSession

/-! ## A forced revalidation -/

/-- What the consistency check of a staged resolution leads to. -/
theorem checkConsistency_cases (s : Session K V) (c : RevalidateCall K V)
    (values memo : Dict K (SnapshotValue K V)) (attempted : List (K × String)) :
    (∃ resources errors, replaceTargets values c.targets s.resources = some resources ∧
      (s.checkConsistency c values memo attempted).phase =
        some (.committing c resources errors memo)) ∨
    (∃ retry, retry.values = values ∧ retry.memo = memo ∧
      (∀ k ∈ c.targets, k ∈ affectedKeysFromMemo [retry.oldestKey] memo → k ∈ retry.targets) ∧
      (s.checkConsistency c values memo attempted).phase = some (.retrying c retry)) ∨
    (s.checkConsistency c values memo attempted).phase = none ∨
    ∃ e, (s.checkConsistency c values memo attempted).phase = some (.rejecting e c) := by
  unfold Session.checkConsistency
  split
  · unfold Session.propose
    split
    · exact .inr (.inr (.inl rfl))
    · rename_i resources hreplace
      split
      · exact .inr (.inr (.inr ⟨_, rfl⟩))
      · exact .inl ⟨resources, _, hreplace, rfl⟩
  · split
    · unfold Session.retry
      split
      · exact .inr (.inr (.inr ⟨_, rfl⟩))
      · split
        · exact .inr (.inr (.inr ⟨_, rfl⟩))
        · refine .inr (.inl ⟨_, rfl, rfl, fun k hk haffected => ?_, rfl⟩)
          have htarget : k ∈ c.targets.filter fun k => decide (k ∈ affectedKeysFromMemo
              [_] memo) := List.mem_filter.mpr ⟨hk, decide_eq_true haffected⟩
          dsimp only
          split
          · exact htarget
          · exact List.mem_cons_of_mem _ htarget
    · exact .inr (.inr (.inr ⟨_, rfl⟩))

/-- Apart from the awaited calls, a session goes on where it stands or leaves its revalidation. -/
theorem session_aside {s t : Session K V} {e : SessionEvent K V} (h : sessionStep s e = some t)
    (hbusy : s.phase.isSome)
    (he : ∀ o leftovers, e = .resolved o leftovers →
      (∀ c, s.phase ≠ some (.staging c)) ∧ ∀ c r, s.phase ≠ some (.retrying c r)) :
    t.phase = s.phase ∨ t.revalidation = none := by
  have hlocked : ∀ u : Session K V, s.locked u = some t → False := by
    intro u hu
    obtain ⟨phase, hphase⟩ := Option.isSome_iff_exists.mp hbusy
    simp [Session.locked, hphase] at hu
  have hended : ∀ {enforce interrupt} {u v : Session K V}, v.revalidation = none →
      u.interrupted enforce interrupt v = some t → t.revalidation = none := by
    intro enforce interrupt u v hv hu
    rcases interrupted_cases hu with rfl | ⟨_, rfl⟩
    · exact hv
    · rfl
  cases e with
  | resolve keys strict retryErrors => exact (hlocked _ h).elim
  | resolveRequest request retryErrors => exact (hlocked _ h).elim
  | revalidate keys strict forceRefresh p q => exact (hlocked _ h).elim
  | snapshotAsync => exact (hlocked _ h).elim
  | close => exact (hlocked _ h).elim
  | snapshot => exact .inl (Option.some.inj h ▸ rfl)
  | resolved o leftovers =>
    right
    obtain ⟨hstaging, hretrying⟩ := he o leftovers rfl
    simp only [sessionStep, Session.onResolved] at h
    split at h
    · split at h
      · exact Option.some.inj h ▸ rfl
      · cases h
    · exact absurd ‹_› (hstaging _)
    · exact absurd ‹_› (hretrying _ _)
    · cases h
  | unresolved interrupt memo leftovers =>
    right
    simp only [sessionStep, Session.onUnresolved] at h
    split at h
    · exact hended (resolveDeadline_revalidation _ _) h
    · exact hended rfl h
    · exact hended rfl h
    · cases h
  | delivered =>
    right
    simp only [sessionStep, Session.onDelivered] at h
    split at h
    · have hfinish : ∀ c : ResolveCall K V, (s.resolveDelivered c).revalidation = none := by
        intro c
        unfold Session.resolveDelivered
        dsimp only
        split <;> rfl
      exact Option.some.inj h ▸ hfinish _
    · exact Option.some.inj h ▸ rfl
    · exact Option.some.inj h ▸ rfl
    · exact Option.some.inj h ▸ rfl
    · exact Option.some.inj h ▸ rfl
    · exact Option.some.inj h ▸ rfl
    · cases h
  | undelivered interrupt =>
    simp only [sessionStep, Session.onUndelivered] at h
    split at h
    · exact .inr (hended (resolveDeadline_revalidation _ _) h)
    · rename_i c hphase
      rcases interrupted_cases h with rfl | ⟨_, rfl⟩
      · exact .inl rfl
      · exact .inr rfl
    · exact .inr (hended rfl h)
    · exact .inr (hended rfl h)
    · exact .inr (hended rfl h)
    · exact .inr (hended rfl h)
    · cases h
  | stray key value =>
    left
    simp only [sessionStep] at h
    split at h
    · exact Option.some.inj h ▸ rfl
    · cases h

/-- What a revalidation that gets under way stages: the selected keys and their visible dependents. -/
theorem beginRevalidate_staging {s : Session K V} {keys : List K} {strict forceRefresh : Bool}
    {p : Option SnapshotConsistencyPolicy} {q : Option (Dict K (SnapshotValue K V) → Bool)}
    (h : (s.beginRevalidate keys strict forceRefresh p q).phase.isSome) :
    ∃ c, s.beginRevalidate keys strict forceRefresh p q = s.await (.staging c) ∧
      c.forceRefresh = forceRefresh ∧ (∀ k ∈ c.targets, k ∈ c.affected) ∧
      ∀ k, k ∈ keys ∨ (k ∈ s.resources.keys ∧ Reached s.memo keys k) → k ∈ c.targets := by
  unfold Session.beginRevalidate at h ⊢
  dsimp only at h ⊢
  split at h
  · cases h
  · split at h
    · cases h
    · split at h
      · cases h
      · rename_i hopen hsome hmemo
        rw [if_neg hopen, if_neg hsome, if_neg hmemo]
        refine ⟨_, rfl, rfl, fun k hk => ?_, fun k hk => ?_⟩
        · rw [Dict.mem_fromKeys, List.mem_append] at hk
          rcases hk with hk | hk
          · exact affectedKeysFromMemo_complete ⟨k, hk, .refl⟩
          · exact (of_decide_eq_true (List.mem_filter.mp hk).2).1
        · rw [Dict.mem_fromKeys, List.mem_append, List.mem_filter]
          by_cases hkey : k ∈ keys
          · exact .inl (Dict.mem_fromKeys.mpr hkey)
          · obtain ⟨hvisible, r, hr, hpath⟩ := hk.resolve_left hkey
            have haffected : k ∈ affectedKeysFromMemo (Dict.fromKeys keys) s.memo :=
              affectedKeysFromMemo_complete ⟨r, Dict.mem_fromKeys.mpr hr, hpath⟩
            exact .inr ⟨hvisible, decide_eq_true
              ⟨haffected, fun h => hkey (Dict.mem_fromKeys.mp h)⟩⟩

namespace SnapshotSession
variable {S S' : SnapshotSession K V}

/-- Its revalidation goes on, and the runtime it awaits is handed no value of a target from
before. -/
structure Reacquires (T₀ : Traced K V) (S : SnapshotSession K V) (l : SnapshotSessionLabel K V) :
    Prop where
  busy : S.session.phase.isSome
  joins : ∀ m c keys r i, l = .builder m → S.awaiting = some (c, keys) → S.staged = some (r, i) →
    ∀ k ∈ c.targets, JoinsSince T₀ k r S.builder m

/-- What holds of the phase of a forced revalidation `c` that began at `T₀`. -/
def Underway (b : Builder K V) (T₀ : Traced K V) (c : RevalidateCall K V)
    (S : SnapshotSession K V) : Option (CallPhase K V) → Prop
  | some (.staging c') => c' = c ∧ S.Staged b T₀ c.targets c.targets
  | some (.retrying c' r) => c' = c ∧ S.Staged b T₀ c.targets r.targets ∧
      S.builder.AllSince T₀ c.targets r.values
  | some (.committing c' resources _ memo) => c' = c ∧
      S.builder.AllSince T₀ c.targets resources ∧ S.builder.AllSince T₀ c.targets memo ∧
      Stocked c.targets memo
  | _ => True

structure Reacquiring (b : Builder K V) (T₀ : Traced K V) (c : RevalidateCall K V)
    (S : SnapshotSession K V) : Prop where
  ready : Ready b T₀ S.builder
  phase : S.Underway b T₀ c S.session.phase

theorem underway_left {c : RevalidateCall K V} {phase : Option (CallPhase K V)}
    (h : phase.bind CallPhase.revalidation = none) : S.Underway b T₀ c phase := by
  cases phase with
  | none => trivial
  | some phase => cases phase <;> trivial

theorem Reacquiring.builder {c : RevalidateCall K V} (hS : S.Reacquiring b T₀ c)
    (hl : S.Reacquires T₀ (.builder l)) (h : b.tracedStep S.builder l = some U) :
    ({ S with builder := U } : SnapshotSession K V).Reacquiring b T₀ c := by
  refine ⟨hS.ready.step h, ?_⟩
  have hphase := hS.phase
  have hjoins := hl.joins l
  unfold awaiting at hjoins
  show ({ S with builder := U } : SnapshotSession K V).Underway b T₀ c S.session.phase
  cases hp : S.session.phase with
  | none => trivial
  | some phase =>
    rw [hp] at hphase hjoins
    cases phase with
    | staging c' =>
      obtain ⟨rfl, hstaged⟩ := hphase
      exact ⟨rfl, hstaged.step (fun r i hst => hjoins c' _ r i rfl rfl hst) h⟩
    | retrying c' retry =>
      obtain ⟨rfl, hstaged, hvalues⟩ := hphase
      exact ⟨rfl, hstaged.step (fun r i hst => hjoins c' _ r i rfl rfl hst) h,
        hvalues.step hS.ready.recorded h⟩
    | committing c' resources errors memo =>
      obtain ⟨rfl, hresources, hmemo, hstocked⟩ := hphase
      exact ⟨rfl, hresources.step hS.ready.recorded h, hmemo.step hS.ready.recorded h, hstocked⟩
    | _ => trivial

/-- A fallback forces what its oldest key affects, and has the rest in its memo. -/
theorem retry_decides {retry : RetryState K V} {targets : List K}
    (hstocked : Stocked targets retry.memo)
    (hcovers : ∀ k ∈ targets, k ∈ affectedKeysFromMemo [retry.oldestKey] retry.memo →
      k ∈ retry.targets) {k : K} (hk : k ∈ targets) :
    retry.runtime.Decides k ∧ (k ∈ retry.targets ∨ ∃ v, retry.runtime.memo.get? k = some v) := by
  by_cases haffected : k ∈ affectedKeysFromMemo [retry.oldestKey] retry.memo
  · exact ⟨.inl haffected, .inl (hcovers k hk haffected)⟩
  · obtain ⟨v, hv⟩ := hstocked k hk
    have hmemo : retry.runtime.memo.get? k = some v := by
      rw [RetryState.runtime, Dict.get?_filter, decide_eq_true haffected, if_pos rfl]
      exact hv
    exact ⟨.inr ⟨v, hmemo⟩, .inr ⟨v, hmemo⟩⟩

/-- What a staged resolution without errors leads to. -/
theorem staged_outcome {c : RevalidateCall K V} {values memo : Dict K (SnapshotValue K V)}
    {attempted : List (K × String)} {s : Session K V} (hT : Ready b T₀ S.builder)
    (hvalues : S.builder.AllSince T₀ c.targets values)
    (hmemo : S.builder.AllSince T₀ c.targets memo) (hstocked : Stocked c.targets memo)
    (hs : s = S.session.checkConsistency c values memo attempted)
    (h : (match s.phase with
      | some (.retrying _ r) => ({ S with session := s }).await b r.runtime r.targets
      | _ => some { S with session := s }) = some S') : S'.Reacquiring b T₀ c := by
  have hcases := checkConsistency_cases S.session c values memo attempted
  rw [← hs] at hcases
  rcases hcases with ⟨resources, errors, hreplace, hphase⟩ | ⟨retry, rfl, rfl, hcovers, hphase⟩ |
    hphase | ⟨e, hphase⟩
  · rw [hphase] at h
    cases h
    refine ⟨hT, ?_⟩
    rw [hphase]
    refine ⟨rfl, fun k hk v hv => ?_, hmemo, hstocked⟩
    have hget := (replaceTargets_spec hreplace).1 k
    rw [hv] at hget
    split at hget
    · exact hvalues k hk v hget.symm
    · rename_i hvisible
      exact absurd ⟨hk, Dict.mem_keys_of_get? hget.symm⟩ hvisible
  · rw [hphase] at h
    have hdecides := fun k (hk : k ∈ c.targets) => retry_decides hstocked hcovers hk
    have hbefore : S.builder.AllSince T₀ c.targets retry.runtime.memo := by
      intro k hk v hv
      rw [RetryState.runtime, Dict.get?_filter] at hv
      split at hv
      · exact hmemo k hk v hv
      · cases hv
    obtain ⟨hsession, hready, hstaged, hsince⟩ := await_staged (S := { S with session := s }) hT
      (fun k hk => (hdecides k hk).1) hbefore (fun k hk => (hdecides k hk).2) h
    refine ⟨hready, ?_⟩
    rw [hsession, hphase]
    exact ⟨rfl, hstaged, hsince _ hvalues⟩
  · rw [hphase] at h
    cases h
    refine ⟨hT, ?_⟩
    rw [hphase]
    trivial
  · rw [hphase] at h
    cases h
    refine ⟨hT, ?_⟩
    rw [hphase]
    trivial

theorem Reacquiring.resolved {c : RevalidateCall K V} {leftovers : List K}
    (hS : S.Reacquiring b T₀ c) (h : S.step b (.resolved leftovers) = some S') :
    S'.Reacquiring b T₀ c := by
  obtain ⟨o, ho, h⟩ := Option.bind_eq_some_iff.mp h
  obtain ⟨s, hs, h⟩ := Option.bind_eq_some_iff.mp h
  have hphase := hS.phase
  have houtcome := @outcome_spec K V _ b T₀ S hS.ready
  unfold awaiting at houtcome
  -- A resolution that reports errors leaves the revalidation.
  have hleft : ∀ {phase}, s.phase = some phase → phase.revalidation = none ∨
      (∃ errors, phase = .reporting c errors) ∨ (∃ e, phase = .rejecting e c) →
      S'.Reacquiring b T₀ c := by
    intro phase hp hcases
    rw [hp] at h
    have hS' : S' = { S with session := s } := by
      rcases hcases with hnone | ⟨errors, rfl⟩ | ⟨e, rfl⟩
      · cases phase <;> first | exact (Option.some.inj h).symm | cases hnone
      · exact (Option.some.inj h).symm
      · exact (Option.some.inj h).symm
    subst hS'
    refine ⟨hS.ready, ?_⟩
    show Underway b T₀ c _ s.phase
    rw [hp]
    rcases hcases with hnone | ⟨errors, rfl⟩ | ⟨e, rfl⟩
    · exact underway_left hnone
    · trivial
    · trivial
  simp only [sessionStep, Session.onResolved] at hs
  split at hs
  · rename_i c' hp
    split at hs
    · exact hleft (congrArg Session.phase (Option.some.inj hs)).symm (.inl rfl)
    · cases hs
  · rename_i c' hp
    rw [hp] at hphase houtcome
    obtain ⟨rfl, hstaged⟩ := hphase
    obtain ⟨hvalues, hmemo, hstocked⟩ := houtcome hstaged rfl ho
    split at hs
    · split at hs
      · rename_i herrors
        exact staged_outcome hS.ready hvalues hmemo (hstocked herrors) (Option.some.inj hs).symm h
      · exact hleft (congrArg Session.phase (Option.some.inj hs)).symm (.inr (.inl ⟨_, rfl⟩))
    · cases hs
  · rename_i c' retry hp
    rw [hp] at hphase houtcome
    obtain ⟨rfl, hstaged, hold⟩ := hphase
    obtain ⟨hvalues, hmemo, hstocked⟩ := houtcome hstaged rfl ho
    split at hs
    · split at hs
      · rename_i herrors
        exact staged_outcome hS.ready (hold.update hvalues) hmemo (hstocked herrors.1)
          (Option.some.inj hs).symm h
      · exact hleft (congrArg Session.phase (Option.some.inj hs)).symm (.inr (.inr ⟨_, rfl⟩))
    · cases hs
  · cases hs

/-- A session moves on its own, or begins a revalidation that calls `_resolve_many`. -/
inductive Moved (b : Builder K V) (S S' : SnapshotSession K V) (e : SessionEvent K V) : Prop
  | alone {s : Session K V} (hs : sessionStep S.session e = some s) (hS : S' = { S with session := s })
      (hawait : ∀ o leftovers, e = .resolved o leftovers → S.awaiting = none)
      (hidle : ∀ keys strict forceRefresh p q, e = .revalidate keys strict forceRefresh p q →
        ∀ c, s.phase ≠ some (.staging c))
  | called {keys : List K} {strict forceRefresh : Bool} {p : Option SnapshotConsistencyPolicy}
      {q : Option (Dict K (SnapshotValue K V) → Bool)} {s : Session K V} {c : RevalidateCall K V}
      (he : e = .revalidate keys strict forceRefresh p q) (hs : sessionStep S.session e = some s)
      (hphase : s.phase = some (.staging c))
      (hcall : ({ S with session := s } : SnapshotSession K V).await b (c.runtime s.memo) c.targets =
        some S')

theorem step_session {e : SessionEvent K V} (h : S.step b (.session e) = some S') :
    Moved b S S' e := by
  have halone : (sessionStep S.session e).map (fun s => { S with session := s }) = some S' →
      (∀ o leftovers, e = .resolved o leftovers → S.awaiting = none) →
      (∀ keys strict forceRefresh p q, e ≠ .revalidate keys strict forceRefresh p q) →
      Moved b S S' e := by
    intro h hawait hother
    obtain ⟨s, hs, hS⟩ := Option.map_eq_some_iff.mp h
    exact .alone hs hS.symm hawait fun _ _ _ _ _ he => absurd he (hother _ _ _ _ _)
  cases e with
  | revalidate keys strict forceRefresh p q =>
    obtain ⟨s, hs, h⟩ := Option.bind_eq_some_iff.mp h
    split at h
    · exact .called rfl hs ‹_› h
    · rename_i hother
      exact .alone hs (Option.some.inj h).symm nofun fun _ _ _ _ _ _ c hp => hother c hp
  | resolved o leftovers =>
    rw [step] at h
    split at h
    · exact halone h (fun _ _ _ => Option.isNone_iff_eq_none.mp ‹_›) nofun
    · cases h
  | _ => exact halone h nofun nofun

theorem Reacquiring.session {c : RevalidateCall K V} {e : SessionEvent K V}
    (hS : S.Reacquiring b T₀ c) (hbusy : S.session.phase.isSome)
    (h : S.step b (.session e) = some S') : S'.Reacquiring b T₀ c := by
  cases step_session h with
  | @alone s hs hS' hawait =>
    subst hS'
    have hphase := session_aside hs hbusy fun o leftovers he => by
      have hnone := hawait o leftovers he
      unfold awaiting at hnone
      exact ⟨fun c hp => by simp [hp] at hnone, fun c r hp => by simp [hp] at hnone⟩
    refine ⟨hS.ready, ?_⟩
    rcases hphase with hsame | hleft
    · show Underway b T₀ c _ s.phase
      rw [hsame]
      exact hS.phase
    · exact underway_left hleft
  | called he hs =>
    subst he
    obtain ⟨phase, hphase⟩ := Option.isSome_iff_exists.mp hbusy
    simp [sessionStep, Session.locked, hphase] at hs

theorem Reacquiring.step {c : RevalidateCall K V} {l : SnapshotSessionLabel K V}
    (hS : S.Reacquiring b T₀ c) (hl : S.Reacquires T₀ l) (h : S.step b l = some S') :
    S'.Reacquiring b T₀ c := by
  cases l with
  | builder l =>
    obtain ⟨U, hU, rfl⟩ := Option.map_eq_some_iff.mp h
    exact hS.builder hl hU
  | session e => exact hS.session hl.busy h
  | resolved leftovers => exact hS.resolved h

/-- The session with its builder before any call. -/
def new (hasDeadline : Bool) (T : Traced K V) (deadline : Option ℚ) : SnapshotSession K V :=
  ⟨.new hasDeadline, T, deadline, none⟩

/-- Every step of the session is a run of the builder. -/
theorem step_builder {l : SnapshotSessionLabel K V} (h : S.step b l = some S') :
    ∃ ls, Run b.tracedStep S.builder ls S'.builder := by
  have hawait : ∀ {runtime targets} {s : Session K V},
      ({ S with session := s }).await b runtime targets = some S' →
      ∃ ls, Run b.tracedStep S.builder ls S'.builder := by
    intro runtime targets s h
    obtain ⟨T, hopen, h⟩ := Option.bind_eq_some_iff.mp h
    obtain ⟨U, hcall, rfl⟩ := Option.map_eq_some_iff.mp h
    exact ⟨_, .cons trivial hopen (.cons trivial hcall (.nil _))⟩
  cases l with
  | builder l =>
    obtain ⟨U, hU, rfl⟩ := Option.map_eq_some_iff.mp h
    exact ⟨[l], .cons trivial hU (.nil _)⟩
  | session e =>
    cases step_session h with
    | alone _ hS =>
      subst hS
      exact ⟨[], .nil _⟩
    | called _ _ _ hcall => exact hawait hcall
  | resolved leftovers =>
    obtain ⟨o, _, h⟩ := Option.bind_eq_some_iff.mp h
    obtain ⟨s, _, h⟩ := Option.bind_eq_some_iff.mp h
    split at h
    · exact hawait h
    · cases h
      exact ⟨[], .nil _⟩

theorem run_builder {ok : SnapshotSession K V → SnapshotSessionLabel K V → Prop}
    {ls : List (SnapshotSessionLabel K V)} (h : RunOf (step b) ok S ls S') :
    ∃ ls, Run b.tracedStep S.builder ls S'.builder := by
  induction h with
  | nil S => exact ⟨[], .nil _⟩
  | cons _ hstep _ ih =>
    obtain ⟨ls, hls⟩ := step_builder hstep
    obtain ⟨ms, hms⟩ := ih
    exact ⟨ls ++ ms, hls.append hms⟩

/-- A forced revalidation stages all targets in a runtime that forces them. -/
theorem begin_reacquiring {keys : List K} {strict : Bool} {p : Option SnapshotConsistencyPolicy}
    {q : Option (Dict K (SnapshotValue K V) → Bool)} (hT : Ready b S.builder S.builder)
    (h : S.step b (.session (.revalidate keys strict true p q)) = some S')
    (hbusy : S'.session.phase.isSome) :
    ∃ c, S'.Reacquiring b S.builder c ∧
      ∀ k, k ∈ keys ∨ (k ∈ S.session.resources.keys ∧ Reached S.session.memo keys k) →
        k ∈ c.targets := by
  have hbegun : ∀ s, sessionStep S.session (.revalidate keys strict true p q) = some s →
      s = S.session.beginRevalidate keys strict true p q := by
    intro s hs
    simp only [sessionStep, Session.locked] at hs
    split at hs
    · exact (Option.some.inj hs).symm
    · cases hs
  cases step_session h with
  | @alone s hs hS' _ hidle =>
    subst hS'
    have hstart := hbusy
    rw [hbegun s hs] at hstart
    obtain ⟨c, hc, _⟩ := beginRevalidate_staging hstart
    rw [← hbegun s hs] at hc
    exact absurd (hc ▸ rfl) (hidle _ _ _ _ _ rfl c)
  | @called _ _ _ _ _ s c he hs hphase hcall =>
    have hstart : (S.session.beginRevalidate keys strict true p q).phase.isSome := by
      rw [← hbegun s hs, hphase]
      rfl
    obtain ⟨c', hc', hforce, hsub, htargets⟩ := beginRevalidate_staging hstart
    rw [← hbegun s hs] at hc'
    subst hc'
    cases hphase
    have hdecides : ∀ k ∈ c.targets, (c.runtime S.session.memo).Decides k := by
      intro k hk
      unfold RevalidateCall.runtime
      rw [hforce]
      exact .inl (hsub k hk)
    have hmemo : S.builder.AllSince S.builder c.targets (c.runtime S.session.memo).memo := by
      intro k hk v hv
      rw [RevalidateCall.runtime, Dict.get?_filter, if_neg (by simp [hsub k hk])] at hv
      cases hv
    obtain ⟨hsession, hready, hstaged, _⟩ := await_staged
      (S := { S with session := S.session.await (.staging c) }) hT hdecides hmemo
      (fun k hk => .inl hk) hcall
    refine ⟨c, ⟨hready, ?_⟩, htargets⟩
    rw [hsession]
    exact ⟨rfl, hstaged⟩

/-- `v` comes from a source call that had not begun at `T₀`, under a version that had not been
handed out. -/
def Reacquired (S : SnapshotSession K V) (T₀ : Traced K V) (v : SnapshotValue K V) : Prop :=
  S.builder.Since T₀ v.version ∧ T₀.revisions.length ≤ v.version

/-- `revalidate(keys, force_refresh=True)` acquires every selected key and every visible dependent
again as long as nothing from before reaches them: while the revalidation awaits its resolution, the
staging runtime joins no flight that carries such a value, no flight it has joined finds one in the
memo of its own session, and no cached one of higher authority supersedes what is written. -/
theorem force_refresh_reacquires (b : Builder K V) {hasDeadline : Bool} {now : ℚ}
    {cache : AsyncMemoryCache K V} {revisions : List (Dict K ℕ)} {deadline : Option ℚ}
    {ls₀ ls : List (SnapshotSessionLabel K V)} {S₀ S₁ S₂ S₃ : SnapshotSession K V} {keys : List K}
    {strict : Bool} {p : Option SnapshotConsistencyPolicy}
    {q : Option (Dict K (SnapshotValue K V) → Bool)} {c : RevalidateCall K V}
    {resources memo : Dict K (SnapshotValue K V)} {errors : Dict K (Error K)}
    (hreach : Run (step b) (.new hasDeadline (.initial now cache revisions) deadline) ls₀ S₀)
    (hbegin : S₀.step b (.session (.revalidate keys strict true p q)) = some S₁)
    (hrun : RunOf (step b) (Reacquires S₀.builder) S₁ ls S₂)
    (hphase : S₂.session.phase = some (.committing c resources errors memo))
    (hcommit : S₂.step b (.session .delivered) = some S₃) {k : K}
    (hk : k ∈ keys ∨ (k ∈ S₀.session.resources.keys ∧ Reached S₀.session.memo keys k)) :
    (∀ v, S₃.session.resources.get? k = some v → S₃.Reacquired S₀.builder v) ∧
      ∃ v, S₃.session.memo.get? k = some v ∧ S₃.Reacquired S₀.builder v := by
  -- Whatever the session did before, its builder is a builder at work.
  obtain ⟨ms, hms⟩ := run_builder hreach
  have hready : Ready b S₀.builder S₀.builder :=
    (hms.invariant (Ready b (.initial now cache revisions)) (fun _ _ _ _ hT h => hT.step h)
      (ready_initial now cache revisions)).here
  have hbusy : S₁.session.phase.isSome := by
    cases hrun with
    | nil => rw [hphase]; rfl
    | cons hok => exact hok.busy
  obtain ⟨c₁, hstart, htargets⟩ := begin_reacquiring hready hbegin hbusy
  have hend : S₂.Reacquiring b S₀.builder c₁ :=
    hrun.invariant (Reacquiring b S₀.builder c₁) (fun _ _ _ hl hS h => hS.step hl h) hstart
  have hunderway := hend.phase
  rw [hphase] at hunderway
  obtain ⟨rfl, hresources, hmemo, hstocked⟩ := hunderway
  -- The commit installs what it has checked.
  obtain ⟨s, hs, rfl⟩ := Option.map_eq_some_iff.mp hcommit
  simp only [sessionStep, Session.onDelivered, hphase, Option.some.injEq] at hs
  subst hs
  have hnew : ∀ v : SnapshotValue K V, S₂.builder.Since S₀.builder v.version →
      S₀.builder.revisions.length ≤ v.version :=
    fun v hv => hv.issued hready.began (hend.ready.old v.version)
  refine ⟨fun v hv => ?_, ?_⟩
  · have hsince := hresources k (htargets k hk) v hv
    exact ⟨hsince, hnew v hsince⟩
  · obtain ⟨v, hv⟩ := hstocked k (htargets k hk)
    have hsince := hmemo k (htargets k hk) v hv
    exact ⟨v, hv, hsince, hnew v hsince⟩

end SnapshotSession

end

/-! ## A published value -/

namespace SnapshotSession

/-- A value of key 0 that was published with this authority. -/
def published (rank : ℤ) : SnapshotValue ℕ ℕ :=
  ⟨0, 5, "local", 0, 0, 0, false, false, rank, 0, .empty⟩

def publishedOutcome (rank : ℤ) : ResolveOutcome ℕ ℕ where
  keys := [0]
  values := Dict.empty.set 0 { published rank with fromCache := true }
  errors := .empty
  memo := Dict.empty.set 0 { published rank with fromCache := true }
  covers := fun k => by simp [Dict.mem_keys_set]
  disjoint := fun k _ => by simp

/-- A session on a builder whose cache holds the published value. -/
def beforePublished (rank : ℤ) : SnapshotSession ℕ ℕ :=
  .new false (.initial 0 { (AsyncMemoryCache.new none AsyncMemoryCache.unlimited : AsyncMemoryCache ℕ ℕ) with
    entries := CacheEntries.empty.put (published rank) } [.empty]) none

def readsPublished : List (Label ℕ ℕ) := [.openRuntime .new, .call 0 none [0]] ++ turns [(0, 6)]

/-- The session resolves key 0, which the cache has. -/
def resolvesPublished (rank : ℤ) : List (SnapshotSessionLabel ℕ ℕ) :=
  [.session (.resolve [0] true false)] ++ readsPublished.map .builder ++
    [.session (.resolved (publishedOutcome rank) []), .session .delivered]

/-- The source of rank 0 answers; `_resolve_owned_keys` goes on for so many turns. -/
def answersAgain (ownedTurns : ℕ) : List (Label ℕ ℕ) :=
  turns [(1, 2), (2, 3)] ++ [.run 3 (.answer (Dict.empty.set 0 ⟨9, none⟩))] ++
    turns [(2, ownedTurns), (1, 3)]

def calledAgain (ownedTurns : ℕ) : List (SnapshotSessionLabel ℕ ℕ) :=
  (answersAgain ownedTurns).map .builder ++ [.resolved []]

/-- A check for `JoinsSince` where every flight is new. -/
def joinsSinceCheck (T₀ T : Traced ℕ ℕ) (key : ℕ) : Label ℕ ℕ → Bool
  | .run i .go => (T.frame? i).all fun f =>
      f.body.reserving.all (fun k => (T.tasks.get? k).isNone) &&
        match f.body with
        | .resolveOwned _ _ (.visiting _) =>
          ((T.runtime f.scope.runtime).pinned key).all fun v => sinceCheck T₀ T v.version
        | .resolveOwned _ _ (.writing _ fresh) => (T.cache.get? key).all fun w =>
          fresh.all fun v => decide (w.authorityRank ≤ v.authorityRank)
        | _ => true
  | _ => true

/-- A check for `Reacquires`. -/
def reacquiresCheck (T₀ : Traced ℕ ℕ) (S : SnapshotSession ℕ ℕ)
    (l : SnapshotSessionLabel ℕ ℕ) : Bool :=
  S.session.phase.isSome && match l with
    | .builder m => S.awaiting.all fun call =>
        call.1.targets.all fun k => joinsSinceCheck T₀ S.builder k m
    | _ => true

theorem joinsSince_of_check {T₀ T : Traced ℕ ℕ} {key r : ℕ} {l : Label ℕ ℕ}
    (h : joinsSinceCheck T₀ T key l = true) : JoinsSince T₀ key r T l := by
  have hframe : ∀ i f, l = .run i .go → T.frame? i = some f →
      (∀ k ∈ f.body.reserving, T.tasks.get? k = none) ∧
        (∀ keys lo sources, f.body = .resolveOwned keys lo (.visiting sources) →
          ∀ v, (T.runtime f.scope.runtime).pinned key = some v →
            sinceCheck T₀ T v.version = true) ∧
        ∀ keys lo sources fresh, f.body = .resolveOwned keys lo (.writing sources fresh) →
          ∀ w, T.cache.get? key = some w → ∀ v ∈ fresh, w.authorityRank ≤ v.authorityRank := by
    rintro i f rfl hf
    have hchecks := (Option.all_eq_true _ _).mp h f hf
    rw [Bool.and_eq_true] at hchecks
    obtain ⟨hreserves, hbody⟩ := hchecks
    refine ⟨?_, ?_, ?_⟩
    · intro k hk
      exact Option.isNone_iff_eq_none.mp (List.all_eq_true.mp hreserves k hk)
    · intro keys lo sources hvisit
      rw [hvisit] at hbody
      exact (Option.all_eq_true _ _).mp hbody
    · intro keys lo sources fresh hwrite w hw v hv
      rw [hwrite] at hbody
      exact of_decide_eq_true (List.all_eq_true.mp ((Option.all_eq_true _ _).mp hbody w hw) v hv)
  refine ⟨?_, ?_, ?_⟩
  · intro i f q hl hf _ hk hq
    rw [(hframe i f hl hf).1 key hk] at hq
    cases hq
  · intro i c keys lo sources q v hl hf _ _ hv
    exact since_of_check ((hframe i _ hl hf).2.1 keys lo sources rfl v hv)
  · intro i c keys lo sources fresh v w hl hf _ hv _ hw hlt
    have hle := (hframe i _ hl hf).2.2 keys lo sources fresh rfl w hw v hv
    omega

theorem reacquires_of_check {T₀ : Traced ℕ ℕ} {S : SnapshotSession ℕ ℕ}
    {l : SnapshotSessionLabel ℕ ℕ} (h : reacquiresCheck T₀ S l = true) : S.Reacquires T₀ l := by
  unfold reacquiresCheck at h
  rw [Bool.and_eq_true] at h
  refine ⟨h.1, ?_⟩
  rintro m c keys r i rfl hawait _ k hk
  have hall := (Option.all_eq_true _ _).mp h.2 (c, keys) hawait
  exact joinsSince_of_check (List.all_eq_true.mp hall k hk)

def commits {K V : Type} [DecidableEq K] : CallPhase K V → Bool
  | .committing _ _ _ _ => true
  | _ => false

theorem committing_of_commits {K V : Type} [DecidableEq K] {phase : CallPhase K V}
    (h : commits phase = true) :
    ∃ c resources errors memo, phase = .committing c resources errors memo := by
  cases phase with
  | committing c resources errors memo => exact ⟨c, resources, errors, memo, rfl⟩
  | _ => cases h

/-- A published value of the source's own rank is replaced by what the source answers. -/
theorem force_refresh_reacquires_published : ∃ S₀ S₁ S₂ S₃ : SnapshotSession ℕ ℕ,
    Run (step plainBuilder) (beforePublished 0) (resolvesPublished 0) S₀ ∧
      S₀.step plainBuilder (.session (.revalidate [0] true true none none)) = some S₁ ∧
      RunOf (step plainBuilder) (Reacquires S₀.builder) S₁ (calledAgain 8) S₂ ∧
      S₂.step plainBuilder (.session .delivered) = some S₃ ∧
      (S₃.session.resources.get? 0).map (·.value) = some 9 ∧
      ∀ v, S₃.session.resources.get? 0 = some v → S₃.Reacquired S₀.builder v := by
  have hrun : (exec (step plainBuilder) (beforePublished 0) (resolvesPublished 0)).bind (fun S₀ =>
      (S₀.step plainBuilder (.session (.revalidate [0] true true none none))).bind fun S₁ =>
        (execOf (step plainBuilder) (reacquiresCheck S₀.builder) S₁ (calledAgain 8)).bind fun S₂ =>
          (S₂.step plainBuilder (.session .delivered)).map fun S₃ =>
            S₂.session.phase.any commits &&
              decide ((S₃.session.resources.get? 0).map (·.value) = some 9)) = some true := by
    decide +kernel
  obtain ⟨S₀, h₀, hrun⟩ := Option.bind_eq_some_iff.mp hrun
  obtain ⟨S₁, h₁, hrun⟩ := Option.bind_eq_some_iff.mp hrun
  obtain ⟨S₂, h₂, hrun⟩ := Option.bind_eq_some_iff.mp hrun
  obtain ⟨S₃, h₃, hfacts⟩ := Option.map_eq_some_iff.mp hrun
  rw [Bool.and_eq_true] at hfacts
  have hreacquires : RunOf (step plainBuilder) (Reacquires S₀.builder) S₁ (calledAgain 8) S₂ :=
    (execOf_run h₂).mono fun _ _ hl => reacquires_of_check hl
  obtain ⟨c, resources, errors, memo, hphase⟩ : ∃ c resources errors memo,
      S₂.session.phase = some (.committing c resources errors memo) := by
    obtain ⟨phase, hphase, hcommits⟩ := (Option.any_eq_true _ _).mp hfacts.1
    obtain ⟨c, resources, errors, memo, rfl⟩ := committing_of_commits hcommits
    exact ⟨c, resources, errors, memo, hphase⟩
  exact ⟨S₀, S₁, S₂, S₃, exec_run h₀, h₁, hreacquires, h₃, of_decide_eq_true hfacts.2,
    (force_refresh_reacquires plainBuilder (exec_run h₀) h₁ hreacquires hphase h₃
      (.inl List.mem_cons_self)).1⟩

/-- A published value of higher authority is committed again, although the source was called and
has answered. -/
theorem force_refresh_keeps_published : ∃ (S₀ S₁ S₂ S₃ : SnapshotSession ℕ ℕ)
    (old new : SnapshotValue ℕ ℕ),
    Run (step plainBuilder) (beforePublished 10) (resolvesPublished 10) S₀ ∧
      S₀.step plainBuilder (.session (.revalidate [0] true true none none)) = some S₁ ∧
      Run (step plainBuilder) S₁ (calledAgain 10) S₂ ∧
      S₂.step plainBuilder (.session .delivered) = some S₃ ∧
      S₀.builder.cache.get? 0 = some old ∧ S₃.session.resources.get? 0 = some new ∧
      new.version = old.version ∧ new.value = old.value ∧ ¬ S₃.Reacquired S₀.builder new := by
  have hrun : (exec (step plainBuilder) (beforePublished 10) (resolvesPublished 10)).bind
      (fun S₀ => (S₀.step plainBuilder (.session (.revalidate [0] true true none none))).bind
        fun S₁ => (exec (step plainBuilder) S₁ (calledAgain 10)).bind fun S₂ =>
          (S₂.step plainBuilder (.session .delivered)).bind fun S₃ =>
            (S₀.builder.cache.get? 0).bind fun old =>
              (S₃.session.resources.get? 0).map fun new =>
                decide (new.version = old.version ∧ new.value = old.value ∧
                  new.version < S₀.builder.revisions.length)) = some true := by
    decide +kernel
  obtain ⟨S₀, h₀, hrun⟩ := Option.bind_eq_some_iff.mp hrun
  obtain ⟨S₁, h₁, hrun⟩ := Option.bind_eq_some_iff.mp hrun
  obtain ⟨S₂, h₂, hrun⟩ := Option.bind_eq_some_iff.mp hrun
  obtain ⟨S₃, h₃, hrun⟩ := Option.bind_eq_some_iff.mp hrun
  obtain ⟨old, hold, hrun⟩ := Option.bind_eq_some_iff.mp hrun
  obtain ⟨new, hnew, hfacts⟩ := Option.map_eq_some_iff.mp hrun
  obtain ⟨hversion, hvalue, hlt⟩ := of_decide_eq_true hfacts
  refine ⟨S₀, S₁, S₂, S₃, old, new, exec_run h₀, h₁, exec_run h₂, h₃, hold, hnew, hversion, hvalue,
    fun hreacquired => ?_⟩
  exact absurd hreacquired.2 (not_le.mpr hlt)

end SnapshotSession

end Coalestra
