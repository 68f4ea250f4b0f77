import Coalestra.Orchestration.LaterCalls
import Coalestra.Orchestration.Pinning
import Coalestra.Orchestration.StaleFallback

/-! # Calls that force all their keys

What `_resolve_many` does in the runtime of a forced revalidation: it takes its keys neither from
the cache nor from a flight, one source loop resolves them all, and every coroutine below owns
them. A runtime of the consistency fallback asks no excluded source and writes nothing back. -/

namespace Coalestra
set_option autoImplicit false
set_option maxHeartbeats 250000

section
variable {K V : Type} [DecidableEq K] {b : Builder K V} {s t u : State K V} {l : Label K V}

/-! ## No excluded source, no write -/

/-- The points of `_resolve_owned_keys` from a cache write on. -/
def OwnedPhase.storing : OwnedPhase K V → Bool
  | .writing _ _ | .written _ _ | .superseding _ _ | .copyingWinner _ _ _ _ | .staleWriting _
  | .staleWritten => true
  | _ => false

/-- `source` is excluded for `k`. -/
def Excludes (excluded : Dict K (List String)) (k : K) (source : Source K) : Prop :=
  source.name ∈ (excluded.get? k).getD []

/-- The coroutine has no key and source that exclude each other, and writes nothing back. -/
def Body.Restricted (excluded : Dict K (List String)) : Body K V → Prop
  | .resolveOwned _ _ p => p.storing = false ∧ ∀ source sources chosen queue children,
      p = .attempting source sources chosen queue children →
      ∀ item ∈ queue, ∀ k ∈ item, ¬ Excludes excluded k source
  | .work source keys _ => ∀ k ∈ keys, ¬ Excludes excluded k source
  | _ => True

/-- A runtime that neither writes what it resolves nor lets go of an exclusion. -/
structure ResolutionRuntime.Detached (r : ResolutionRuntime K V)
    (excluded : Dict K (List String)) : Prop where
  fresh : r.cacheSourceResults = false
  stale : r.cacheStaleResults = false
  sources : r.excludedSources = excluded

theorem ResolutionRuntime.Stored.detached {r r' : ResolutionRuntime K V} {k : K}
    {v : SnapshotValue K V} {excluded : Dict K (List String)} (h : r.Stored r' k v)
    (hr : r.Detached excluded) : r'.Detached excluded := by
  rcases h with rfl | rfl
  · exact ⟨hr.fresh, hr.stale, hr.sources⟩
  · exact ⟨hr.fresh, hr.stale, hr.sources⟩

theorem mem_considered {r : ResolutionRuntime K V} {source : Source K} {lo : OwnedLocals K V}
    {excluded : Dict K (List String)} (hr : r.excludedSources = excluded) {k : K}
    (hk : k ∈ consideredKeys r source lo) : ¬ Excludes excluded k source := by
  have hfilter := (List.mem_filter.mp hk).2
  unfold ResolutionRuntime.sourceIsExcluded at hfilter
  rw [hr, Bool.not_eq_true', decide_eq_false_iff_not] at hfilter
  exact hfilter

/-- A source loop of a detached runtime goes on to the next source. -/
theorem moveOwned_detached {c : Scope K} {keys : List K} {lo : OwnedLocals K V}
    {p : OwnedPhase K V} {e : Event K V} {m : Step K V} {excluded : Dict K (List String)}
    (h : b.moveOwned s c keys lo p e = some m)
    (hr : (s.runtime c.runtime).Detached excluded)
    (hp : (Body.resolveOwned keys lo p).Restricted excluded) : m.body.Restricted excluded := by
  have hidle : ∀ {lo' : OwnedLocals K V} {p' : OwnedPhase K V}, p'.storing = false →
      (∀ source sources chosen queue children,
        p' ≠ .attempting source sources chosen queue children) →
      (Body.resolveOwned keys lo' p').Restricted excluded :=
    fun hs hne => ⟨hs, fun _ _ _ _ _ heq => absurd heq (hne _ _ _ _ _)⟩
  cases moveOwned_cases h with
  | attempt hl hc =>
    refine ⟨rfl, ?_⟩
    rintro _ _ _ _ _ ⟨⟩ item hitem k hk
    have hchosen := (mem_items hitem).2 k hk
    rw [hc] at hchosen
    exact mem_considered hr.sources (mem_candidates.mp hchosen).1
  | dispatch =>
    refine ⟨rfl, ?_⟩
    rintro _ _ _ _ _ ⟨⟩ item hitem k hk
    exact hp.2 _ _ _ _ _ rfl item (List.mem_cons_of_mem _ hitem) k hk
  | publish =>
    simp [Builder.moveOwned, hr.fresh] at h
  | publishStale =>
    simp [Builder.moveOwned, hr.stale] at h
  | write => cases hp.1
  | wrote => cases hp.1
  | superseded => cases hp.1
  | supersede => cases hp.1
  | installWinner => cases hp.1
  | writeStale => cases hp.1
  | wroteStale => cases hp.1
  | _ => exact hidle rfl (by simp)

theorem move_detached {f : Frame K V} {e : Event K V} {m : Step K V}
    {excluded : Dict K (List String)} (h : b.move s f e = some m)
    (hr : (s.runtime f.scope.runtime).Detached excluded) (hf : f.body.Restricted excluded) :
    m.body.Restricted excluded ∧ ∀ g, m.spawn = some g → g.body.Restricted excluded := by
  have hm := move_cases h
  have hstart : ∀ g, m.spawn = some g → (∀ source keys p, g.body ≠ .work source keys p) →
      g.body.Restricted excluded := by
    intro g hg hne
    have hat := hm.spawn_atStart hg
    obtain ⟨cg, body⟩ := g
    cases body with
    | resolveOwned keys lo p =>
      obtain ⟨rfl, rfl⟩ := hat
      exact ⟨rfl, nofun⟩
    | work source keys p => exact absurd rfl (hne _ _ _)
    | _ => trivial
  obtain ⟨c, body⟩ := f
  cases hm with
  | many hm =>
    refine ⟨?_, fun g hg => hstart g hg ?_⟩
    · cases hm <;> trivial
    · intro source keys p heq
      cases hm with
      | delegate => cases hg; cases heq
      | hit =>
        rw [schedule_spawn hg] at heq
        cases heq
      | reserve =>
        obtain ⟨owned, _, _, rfl⟩ := reserve_spawn_eq hg
        cases heq
      | _ => cases hg
  | owned hm =>
    refine ⟨moveOwned_detached h hr hf, fun g hg => ?_⟩
    cases hm with
    | dispatch =>
      cases hg
      exact fun k hk => hf.2 _ _ _ _ _ rfl _ List.mem_cons_self k hk
    | _ => cases hg
  | work hm =>
    refine ⟨?_, fun g hg => hstart g hg ?_⟩
    · cases hm <;> exact hf
    · intro source keys p heq
      cases hm with
      | depend => cases hg; cases heq
      | _ => cases hg
  | produce hm =>
    refine ⟨?_, fun g hg => hstart g hg ?_⟩
    · cases hm <;> trivial
    · intro source keys p heq
      cases hm with
      | start => cases hg; cases heq
      | _ => cases hg
  | refresh hm =>
    refine ⟨?_, fun g hg => hstart g hg ?_⟩
    · cases hm <;> trivial
    · intro source keys p heq
      cases hm with
      | reserve =>
        obtain ⟨owned, _, _, rfl⟩ := reserve_spawn_eq hg
        cases heq
      | _ => cases hg

/-- What holds of all coroutines of a detached runtime. -/
structure DetachedRun (excluded : Dict K (List String)) (r : ℕ) (s : State K V) : Prop where
  opened : r < s.runtimes.length
  settings : (s.runtime r).Detached excluded
  frames : ∀ i f, s.frame? i = some f → f.scope.runtime = r → f.body.Restricted excluded

theorem DetachedRun.step {excluded : Dict K (List String)} {r : ℕ} (hs : DetachedRun excluded r s)
    (h : b.step s l = some t) : DetachedRun excluded r t := by
  have hstep := step_cases h
  refine ⟨lt_of_lt_of_le hs.opened hstep.runtimes_length,
    hstep.runtime_stored hs.opened (fun hst hr => hst.detached hr) hs.settings, ?_⟩
  intro i f hf hr
  cases l with
  | run j e =>
    obtain ⟨g, m, hg, hm, rfl⟩ := step_run.mp h
    rcases frame?_apply_cases hg hf with ⟨rfl, rfl⟩ | ⟨rfl, hsp⟩ | ⟨_, hf⟩
    · have hown : g.scope.runtime = r := hr
      exact (move_detached hm (hown ▸ hs.settings) (hs.frames _ g hg hown)).1
    · rcases (move_cases hm).spawn_runtime hsp with hown | ⟨hnew, _⟩
      · rw [hown] at hr
        exact (move_detached hm (hr ▸ hs.settings) (hs.frames _ g hg hr)).2 f hsp
      · exact absurd hs.opened (by omega)
    · exact hs.frames i f hf hr
  | call runtime deadline keys =>
    cases hstep with
    | call =>
      rcases frame?_append_cases hf with hf | ⟨_, rfl⟩
      · exact hs.frames i f hf hr
      · trivial
  | tick now =>
    cases hstep
    exact hs.frames i f hf hr
  | openRuntime runtime =>
    cases hstep
    exact hs.frames i f hf hr
  | external cache =>
    cases hstep
    exact hs.frames i f hf hr

/-! ## The call itself -/

/-- The loop over the results and what comes after it: nothing is awaited there when no cached value
stands by. -/
def ManyPhase.returning : ManyPhase K V → Bool
  | .collecting _ | .done => true
  | _ => false

/-- Frame `i` hands its results to its caller. -/
def State.returning (s : State K V) (i : ℕ) : Bool :=
  match s.frame? i with
  | some ⟨_, .resolveMany _ _ p⟩ => p.returning
  | _ => false

/-- The points of a call all of whose keys are forced, with what it holds there. -/
def EntryPoint (keys : List K) (r : ResolutionRuntime K V) (lo : ManyLocals K V) :
    ManyPhase K V → Prop
  | .start => lo = .new ∧ ∀ k ∈ keys, k ∈ r.forceRefreshKeys
  | .serving lookups => lookups = [] ∧ lo.pending = keys ∧ (∀ k, lo.values.get? k = none) ∧
      (∀ k, lo.staleCandidates.get? k = none) ∧ ∀ k ∈ keys, k ∈ r.forceRefreshKeys
  | .resolving _ shared => shared = [] ∧ (∀ k, lo.values.get? k = none) ∧
      ∀ k, lo.staleCandidates.get? k = none
  | .collecting _ => (∀ k, lo.staleCandidates.get? k = none) ∧ Extends lo.values r.memo
  | .done => Extends lo.values r.memo
  | .raised _ => True
  | _ => False

theorem runtime_refresh {s : Shared K V} {r : ℕ} (hr : r < s.runtimes.length) (k : K)
    (v : SnapshotValue K V) :
    ((s.refresh r k v).runtime r).memo = (s.runtime r).memo.set k v := by
  unfold Shared.refresh
  rw [Shared.runtime, setRuntime_runtimes, List.getElem?_set_self hr]
  rfl

theorem extends_set {d d' : Dict K (SnapshotValue K V)} (h : Extends d d') (k : K)
    (v : SnapshotValue K V) : Extends (d.set k v) (d'.set k v) := by
  intro j w hj
  rw [Dict.get?_set] at hj ⊢
  split
  · rename_i heq
    rwa [if_pos heq] at hj
  · rename_i hne
    rw [if_neg hne] at hj
    exact h j w hj

/-- The keys that are still forced stay with the call. -/
theorem forced_direct {r : ResolutionRuntime K V} {keys : List K}
    (hforced : ∀ k ∈ keys, k ∈ r.forceRefreshKeys) (c : Scope K) :
    keys.filter (ownsDirectly c r) = keys ∧
      keys.filter (fun key => !ownsDirectly c r key) = [] := by
  have hall : ∀ k ∈ keys, ownsDirectly c r k = true := by
    intro k hk
    simp [ownsDirectly, hforced k hk]
  refine ⟨List.filter_eq_self.mpr hall, List.filter_eq_nil_iff.mpr fun k hk => ?_⟩
  simp [hall k hk]

section
variable {c : Scope K} {keys : List K} {lo : ManyLocals K V} {p : ManyPhase K V} {e : Event K V}
  {m : Step K V}

/-- The call keeps to its points. -/
theorem EntryPoint.move (hm : ManyMove b s c keys lo p e m)
    (hp : EntryPoint keys (s.runtime c.runtime) lo p) (hkeys : keys ≠ [])
    (hr : c.runtime < s.runtimes.length) {keys' : List K} {lo' : ManyLocals K V}
    {p' : ManyPhase K V} (hbody : m.body = .resolveMany keys' lo' p') :
    EntryPoint keys (m.shared.runtime c.runtime) lo' p' := by
  have hnone : ∀ {lo' : ManyLocals K V}, (∀ k, lo'.values.get? k = none) →
      Extends lo'.values (s.runtime c.runtime).memo := by
    intro lo' h k v hk
    rw [h k] at hk
    cases hk
  cases hm with
  | start =>
    obtain ⟨rfl, hforced⟩ := hp
    have hcache : cacheKeysOf (s.runtime c.runtime) keys = [] :=
      List.filter_eq_nil_iff.mpr fun k hk => by simp [hforced k hk]
    cases hbody
    rw [if_pos hcache]
    refine ⟨rfl, List.filter_eq_self.mpr fun k hk => by simp [hforced k hk], fun k => ?_,
      fun k => rfl, hforced⟩
    rw [Dict.get?_comprehend]
    split
    · rename_i hk
      simp [ResolutionRuntime.pinned, hforced k hk]
    · rfl
  | served hpending => exact absurd (hp.2.1.symm.trans hpending) hkeys
  | share hd =>
    rw [hp.2.1, (forced_direct hp.2.2.2.2 c).1] at hd
    exact absurd hd hkeys
  | delegate =>
    obtain ⟨_, hpending, hvalues, hcandidates, hforced⟩ := hp
    cases hbody
    rw [hpending]
    exact ⟨(forced_direct hforced c).2, hvalues, hcandidates⟩
  | delegated =>
    cases hbody
    rw [if_pos hp.1]
    exact ⟨hp.2.2, hnone hp.2.1⟩
  | collected =>
    cases hbody
    exact hp.2
  | collectValue =>
    cases hbody
    rw [EntryPoint, runtime_refresh hr]
    exact ⟨hp.1, extends_set hp.2 _ _⟩
  | collectError =>
    cases hbody
    exact hp
  | collectStale _ hc => simp [hp.1] at hc
  | delegateRaised =>
    cases hbody
    trivial
  | collectMissing =>
    cases hbody
    trivial
  | hit => cases hp.1
  | miss => cases hp.1
  | missStale => cases hp.1
  | interrupt hi =>
    cases p with
    | reading | isolating | copying | fallback => exact False.elim hp
    | _ => cases hi
  | _ => exact False.elim hp

/-- It starts one source loop, for all its keys. -/
theorem EntryPoint.spawn (hm : ManyMove b s c keys lo p e m)
    (hp : EntryPoint keys (s.runtime c.runtime) lo p) {g : Frame K V} (hg : m.spawn = some g) :
    (∀ k ∈ keys, k ∈ g.scope.localOwned) ∧
      ∀ keys' lo' p', m.body = .resolveMany keys' lo' p' → p'.early = false := by
  cases hm with
  | delegate =>
    obtain ⟨_, hpending, _, _, hforced⟩ := hp
    cases hg
    refine ⟨fun k hk => ?_, ?_⟩
    · rw [hpending, (forced_direct hforced c).1]
      exact List.mem_append_right _ hk
    · rintro _ _ _ ⟨⟩
      rfl
  | hit => cases hp.1
  | reserve => exact False.elim hp
  | _ => cases hg

/-- Once its keys have been forced, nothing makes it force them again. -/
theorem EntryPoint.begun (hm : ManyMove b s c keys lo p e m) {keys' : List K}
    {lo' : ManyLocals K V} {p' : ManyPhase K V} (hbody : m.body = .resolveMany keys' lo' p')
    (hp : EntryPoint keys (s.runtime c.runtime) lo p) (hp' : p'.early = true) : p.early = true := by
  cases hm with
  | start => rfl
  | delegated =>
    cases hbody
    rw [if_pos hp.1] at hp'
    cases hp'
  | isolate => exact False.elim hp
  | read => exact False.elim hp
  | install => exact False.elim hp
  | hit => rfl
  | miss => rfl
  | missStale => rfl
  | _ =>
    cases hbody
    cases hp'

end

/-! ## The coroutines below -/

/-- A started coroutine owns what its parent does, except for a refresh. -/
theorem Move.spawn_localOwned {c : Scope K} {body : Body K V} {e : Event K V} {m : Step K V}
    (hm : Move b s c body e m) (hopen : c.runtime < s.runtimes.length) {g : Frame K V}
    (hg : m.spawn = some g) (hr : g.scope.runtime = c.runtime) :
    ∀ k ∈ c.localOwned, k ∈ g.scope.localOwned := by
  have hreserve : ∀ keys, (s.reserve c keys).2.2 = some g →
      ∀ k ∈ c.localOwned, k ∈ g.scope.localOwned := by
    intro keys h k hk
    obtain ⟨owned, _, _, rfl⟩ := reserve_spawn_eq h
    exact List.mem_append_left _ hk
  cases hm with
  | many hm =>
    cases hm with
    | delegate => cases hg; exact fun k hk => List.mem_append_left _ hk
    | hit =>
      rw [schedule_spawn hg] at hr
      exact absurd hr (Nat.ne_of_gt hopen)
    | reserve => exact hreserve _ hg
    | _ => cases hg
  | owned hm =>
    cases hm with
    | dispatch => cases hg; exact fun k hk => hk
    | _ => cases hg
  | work hm =>
    cases hm with
    | depend => cases hg; exact fun k hk => hk
    | _ => cases hg
  | produce hm =>
    cases hm with
    | start => cases hg; exact fun k hk => hk
    | _ => cases hg
  | refresh hm =>
    cases hm with
    | reserve => exact hreserve _ hg
    | _ => cases hg

/-- A runtime changes only when one of its own coroutines moves. -/
theorem Stepped.runtime_still (h : Stepped b s l t) {r : ℕ} (hr : r < s.runtimes.length)
    (hidle : ∀ j e g, l = .run j e → s.frame? j = some g → g.scope.runtime ≠ r) :
    t.runtime r = s.runtime r := by
  cases h with
  | @run j e g m hg hm =>
    rcases hm.runtime r with hsame | ⟨hown, _⟩ | ⟨hge, _⟩
    · exact hsame
    · exact absurd hown.symm (hidle j e g rfl hg)
    · omega
  | @openRuntime r' _ => exact runtime_append_lt (s := s.toShared) (r := r') rfl hr
  | _ => rfl

/-- Call `i` of runtime `r` forces all its keys. Until it has started its source loop no other
coroutine runs in `r`, and from then on every other one owns the keys. -/
structure Entered (keys : List K) (r i : ℕ) (s : State K V) : Prop where
  opened : r < s.runtimes.length
  call : ∃ deadline, s.Called i ⟨deadline, r, [], [], none⟩ (.many keys)
  point : ∀ c keys' lo p, s.frame? i = some ⟨c, .resolveMany keys' lo p⟩ →
    EntryPoint keys (s.runtime r) lo p
  alone : ∀ c keys' lo p, s.frame? i = some ⟨c, .resolveMany keys' lo p⟩ → p.early = true →
    ∀ j f, s.frame? j = some f → f.scope.runtime = r → j = i
  nested : ∀ j f, s.frame? j = some f → f.scope.runtime = r → j ≠ i →
    ∀ k ∈ keys, k ∈ f.scope.localOwned

/-- What the call hands to its caller is not interrupted, and nobody else calls into its runtime. -/
structure Undisturbed (r i : ℕ) (s : State K V) (l : Label K V) : Prop where
  returns : s.returning i = true → ∀ j e, l = .run j e → j = i
  own : ∀ deadline keys, l ≠ .call r deadline keys

theorem Entered.frame {keys : List K} {r i : ℕ} (hs : Entered keys r i s) {f : Frame K V}
    (hf : s.frame? i = some f) : ∃ lo p, f = ⟨f.scope, .resolveMany keys lo p⟩ ∧
      f.scope.runtime = r ∧ EntryPoint keys (s.runtime r) lo p := by
  obtain ⟨deadline, g, hg, hscope, hcall⟩ := hs.call
  rw [hf, Option.some.injEq] at hg
  subst hg
  obtain ⟨c, body⟩ := f
  cases body with
  | resolveMany keys' lo p =>
    cases hcall
    exact ⟨lo, p, rfl, congrArg Scope.runtime hscope, hs.point c keys lo p hf⟩
  | _ => cases hcall

/-- A point of the call depends on the runtime only where the call stands alone or returns. -/
theorem EntryPoint.still {keys : List K} {r r' : ResolutionRuntime K V} {lo : ManyLocals K V}
    {p : ManyPhase K V} (hp : EntryPoint keys r lo p)
    (hsame : p.early = true ∨ p.returning = true → r' = r) : EntryPoint keys r' lo p := by
  cases p with
  | start =>
    rw [hsame (.inl rfl)]
    exact hp
  | serving lookups =>
    rw [hsame (.inl rfl)]
    exact hp
  | collecting rest =>
    rw [hsame (.inr rfl)]
    exact hp
  | done =>
    rw [hsame (.inr rfl)]
    exact hp
  | _ => exact hp

theorem Entered.step {keys : List K} {r i : ℕ} (hs : Entered keys r i s) (hkeys : keys ≠ [])
    (hl : Undisturbed r i s l) (h : b.step s l = some t) : Entered keys r i t := by
  have hstep := step_cases h
  obtain ⟨deadline, hcalled⟩ := hs.call
  refine ⟨lt_of_lt_of_le hs.opened hstep.runtimes_length, ⟨deadline, hstep.called hcalled⟩,
    ?_, ?_, ?_⟩
  · intro c keys' lo p hf
    cases hstep.came hf with
    | @moved e g m hg hm ht hbody =>
      obtain ⟨lo₀, p₀, hgeq, hgr, hpoint⟩ := hs.frame hg
      rw [Frame.mk.injEq] at hbody
      obtain ⟨cg, body⟩ := g
      rw [Frame.mk.injEq] at hgeq
      obtain ⟨-, rfl⟩ := hgeq
      dsimp only at hgr hm
      subst hgr
      rw [ht]
      cases hm with
      | many hm => exact hpoint.move hm hkeys hs.opened hbody.2.symm
    | started _ _ _ hi => exact absurd hcalled.lt (by omega)
    | called hi => exact absurd hcalled.lt (by omega)
    | stayed hne hf =>
      refine (hs.point c keys' lo p hf).still fun hphase => ?_
      refine hstep.runtime_still hs.opened fun j e g hj hg hgr => ?_
      rcases hphase with hearly | hreturns
      · exact hne e (hs.alone c keys' lo p hf hearly j g hg hgr ▸ hj)
      · have hreturning : s.returning i = true := by
          unfold State.returning
          rw [hf]
          exact hreturns
        exact hne e (hl.returns hreturning j e hj ▸ hj)
  · intro c keys' lo p hf hearly
    -- The call was early before, so it was alone, and has started nothing.
    have hbefore : (∀ j f, s.frame? j = some f → f.scope.runtime = r → j = i) ∧
        ∀ e g m, l = .run i e → s.frame? i = some g → Move b s g.scope g.body e m →
          t = s.apply i g m → m.spawn = none := by
      cases hstep.came hf with
      | @moved e g m hg hm ht hbody =>
        obtain ⟨lo₀, p₀, hgeq, hgr, hpoint⟩ := hs.frame hg
        rw [Frame.mk.injEq] at hbody
        obtain ⟨cg, body⟩ := g
        rw [Frame.mk.injEq] at hgeq
        obtain ⟨-, rfl⟩ := hgeq
        dsimp only at hgr hm
        subst hgr
        cases hm with
        | many hm =>
          refine ⟨hs.alone cg keys lo₀ p₀ hg (hpoint.begun hm hbody.2.symm hearly), ?_⟩
          intro e' g' m' _ hg' hm' ht'
          rw [hg, Option.some.injEq] at hg'
          subst hg'
          cases hsp : m'.spawn with
          | none => rfl
          | some x =>
            have hf' := frame?_apply_self m' hg
            rw [← ht', hf, Option.some.injEq, Frame.mk.injEq] at hf'
            cases hm' with
            | many hm' =>
              have := (hpoint.spawn hm' hsp).2 _ _ _ hf'.2.symm
              rw [hearly] at this
              cases this
      | started _ _ _ hi => exact absurd hcalled.lt (by omega)
      | called hi => exact absurd hcalled.lt (by omega)
      | stayed hne hf =>
        exact ⟨hs.alone c keys' lo p hf hearly, fun e _ _ he => absurd he (hne e)⟩
    intro j f hj hr
    cases hstep.came hj with
    | moved hg _ _ hbody =>
      subst hbody
      exact hbefore.1 j _ hg hr
    | @started i' e g m hg hm ht hi hsp =>
      rcases hm.spawn_runtime hsp with hown | ⟨hnew, _⟩
      · have hself := hbefore.1 i' g hg (hown ▸ hr)
        subst hself
        rw [hbefore.2 e g m rfl hg hm ht] at hsp
        cases hsp
      · exact absurd hs.opened (by omega)
    | @called runtime deadline' ks hi hcall =>
      subst hcall
      exact absurd (congrArg (Label.call · deadline' ks) hr) (hl.own deadline' ks)
    | stayed _ hg => exact hbefore.1 j f hg hr
  · intro j f hj hr hne
    cases hstep.came hj with
    | @moved e g m hg _ _ hbody =>
      subst hbody
      exact hs.nested j g hg hr hne
    | @started i' e g m hg hm ht hi hsp =>
      rcases hm.spawn_runtime hsp with hown | ⟨hnew, _⟩
      · have hgr : g.scope.runtime = r := hown ▸ hr
        by_cases hself : i' = i
        · subst hself
          obtain ⟨lo₀, p₀, hgeq, _, hpoint⟩ := hs.frame hg
          obtain ⟨cg, body⟩ := g
          rw [Frame.mk.injEq] at hgeq
          obtain ⟨-, rfl⟩ := hgeq
          dsimp only at hgr hm
          subst hgr
          cases hm with
          | many hm => exact (hpoint.spawn hm hsp).1
        · intro k hk
          refine hm.spawn_localOwned (hgr ▸ hs.opened) hsp hown k ?_
          exact hs.nested i' g hg hgr hself k hk
      · exact absurd hs.opened (by omega)
    | @called runtime deadline' ks hi hcall =>
      subst hcall
      exact absurd (congrArg (Label.call · deadline' ks) hr) (hl.own deadline' ks)
    | stayed _ hg => exact hs.nested j f hg hr hne

/-! ## Values of the builder's sources -/

/-- The value names a source of the builder. -/
def Builder.Sources (b : Builder K V) (v : SnapshotValue K V) : Prop :=
  v.source ∈ b.sources.map Source.name

/-- The key that falls back to its cached value. -/
def ManyPhase.fallingBack : ManyPhase K V → Option K
  | .fallback key _ _ => some key
  | _ => none

/-- The key is taken from neither cache nor flight, and its results name sources of the builder. -/
structure ManySourced (b : Builder K V) (k : K) (lo : ManyLocals K V) (p : ManyPhase K V) : Prop
    where
  lookedUp : k ∉ p.lookedUp
  candidates : lo.staleCandidates.get? k = none
  fallback : p.fallingBack ≠ some k
  results : ∀ v, lo.results.get? k = some (.ok v) → b.Sources v

structure OwnedSourced (b : Builder K V) (k : K) (lo : OwnedLocals K V) : Prop where
  resolved : ∀ v, lo.resolved.get? k = some (.ok v) → b.Sources v
  best : ∀ v, lo.bestStale.get? k = some v → b.Sources v

def Body.Sourced (b : Builder K V) (k : K) : Body K V → Prop
  | .resolveMany _ lo p => ManySourced b k lo p
  | .resolveOwned _ lo _ => OwnedSourced b k lo
  | _ => True

theorem harvest_sources {source : Source K} {key : K} {a : SourceAttempt K V}
    {v : SnapshotValue K V} {versions : Dict K ℕ} (hsource : source ∈ b.sources)
    (h : b.harvest s.now s.revisions.length source key a = .fresh v versions ∨
      b.harvest s.now s.revisions.length source key a = .stale v versions) : b.Sources v := by
  obtain ⟨payload, _, rfl⟩ := harvest_value h
  exact List.mem_map_of_mem hsource

theorem atStart_sourced {body : Body K V} (h : body.AtStart b) (k : K) : body.Sourced b k := by
  cases body with
  | resolveMany keys lo p =>
    obtain ⟨rfl, rfl⟩ := h
    exact ⟨List.not_mem_nil, rfl, nofun, nofun⟩
  | resolveOwned keys lo p =>
    obtain ⟨rfl, rfl⟩ := h
    exact ⟨nofun, nofun⟩
  | _ => trivial

section
variable {c : Scope K} {keys : List K} {k : K} {e : Event K V} {m : Step K V}

/-- `hchild` and `hfutures` say what the coroutine may take from others: results of its source loop,
and no result of a flight. -/
theorem ManyMove.sourced {lo : ManyLocals K V} {p : ManyPhase K V}
    (hm : ManyMove b s c keys lo p e m) (hp : ManySourced b k lo p)
    (hdecides : (s.runtime c.runtime).Decides k)
    (hchild : ∀ child shared resolved, p = .resolving child shared →
      s.ownedOutcome child = some (.ok resolved) →
      ∀ v, resolved.get? k = some (.ok v) → b.Sources v)
    (hfutures : ∀ futures q, p = .joining futures → (k, q) ∉ futures) :
    m.body.Sourced b k := by
  have hlater : ∀ {lo' : ManyLocals K V} {p' : ManyPhase K V}, k ∉ p'.lookedUp →
      p'.fallingBack = none → lo'.staleCandidates = lo.staleCandidates →
      (∀ v, lo'.results.get? k = some (.ok v) → b.Sources v) → ManySourced b k lo' p' :=
    fun hl hf hc hr => ⟨hl, hc ▸ hp.candidates, by rw [hf]; simp, hr⟩
  have hidle : ∀ {lo' : ManyLocals K V} {p' : ManyPhase K V}, p'.lookedUp = [] →
      p'.fallingBack = none → lo'.staleCandidates = lo.staleCandidates →
      lo'.results = lo.results → ManySourced b k lo' p' := by
    intro lo' p' hl hf hc hr
    refine hlater (by rw [hl]; exact List.not_mem_nil) hf hc ?_
    rw [hr]
    exact hp.results
  cases hm with
  | start =>
    refine hlater ?_ ?_ rfl hp.results
    · split
      · exact List.not_mem_nil
      · exact hdecides.not_cached keys
    · split <;> rfl
  | read =>
    refine hlater (fun hk => hp.lookedUp ?_) rfl rfl hp.results
    rw [ManyPhase.lookedUp, AsyncMemoryCache.getMany, AsyncMemoryCache.getManyLocked_keys] at hk
    exact Dict.mem_fromKeys.mp hk
  | isolate =>
    refine hlater (fun hk => hp.lookedUp ?_) rfl rfl hp.results
    rw [ManyPhase.lookedUp, List.map_map] at hk
    exact hk
  | served => exact hidle rfl rfl rfl rfl
  | share => exact hidle rfl rfl rfl rfl
  | delegate => exact hidle rfl rfl rfl rfl
  | hit => exact hlater hp.lookedUp rfl rfl hp.results
  | miss => exact hlater (fun hk => hp.lookedUp (List.mem_cons_of_mem _ hk)) rfl rfl hp.results
  | missStale =>
    refine ⟨fun hk => hp.lookedUp (List.mem_cons_of_mem _ hk), ?_, fun hfalling => ?_, hp.results⟩
    · rw [Dict.get?_set_ne _ _ fun hk => hp.lookedUp (List.mem_cons.mpr (.inl hk))]
      exact hp.candidates
    · cases hfalling
  | install => exact hlater (fun hk => hp.lookedUp (List.mem_cons_of_mem _ hk)) rfl rfl hp.results
  | delegated ho =>
    refine hlater ?_ ?_ rfl fun v hv => ?_
    · split <;> exact List.not_mem_nil
    · split <;> rfl
    · rcases Dict.get?_update_cases hv with hv | hv
      · exact hchild _ _ _ rfl ho v hv
      · exact hp.results v hv
  | delegateRaised => exact hidle rfl rfl rfl rfl
  | reserve => exact hidle rfl rfl rfl rfl
  | joined hj =>
    refine hlater List.not_mem_nil rfl rfl fun v hv => ?_
    rcases Dict.get?_update_cases hv with hv | hv
    · obtain ⟨q, hq, _⟩ := joined_get? hj hv
      exact absurd hq (hfutures _ q rfl)
    · exact hp.results v hv
  | joinRaised => exact hidle rfl rfl rfl rfl
  | collected => exact hidle rfl rfl rfl rfl
  | collectMissing => exact hidle rfl rfl rfl rfl
  | collectValue => exact hidle rfl rfl rfl rfl
  | collectError => exact hidle rfl rfl rfl rfl
  | @collectStale key _ _ _ _ hc =>
    refine ⟨List.not_mem_nil, hp.candidates, ?_, hp.results⟩
    rintro ⟨⟩
    rw [hp.candidates] at hc
    cases hc
  | fallBack => exact hidle rfl rfl rfl rfl
  | interrupt => exact hidle rfl rfl rfl rfl

theorem OwnedMove.sourced {lo : OwnedLocals K V} {p : OwnedPhase K V}
    (hm : OwnedMove b s c keys lo p e m) (hp : OwnedSourced b k lo)
    (hmemo : ∀ v, (s.runtime c.runtime).memo.get? k = some v → b.Sources v)
    (hsource : ∀ source sources attempts rest fresh,
      p = .harvesting source sources attempts rest fresh → source ∈ b.sources)
    (hstoring : p.storing = false) : m.body.Sourced b k := by
  have hvisit : OwnedSourced b k (Builder.visit (s.runtime c.runtime) lo) := by
    refine ⟨fun v hv => ?_, hp.best⟩
    rcases Dict.get?_update_cases hv with hv | hv
    · rw [Dict.get?_comprehend] at hv
      split at hv
      · obtain ⟨w, hw, heq⟩ := Option.map_eq_some_iff.mp hv
        cases heq
        exact hmemo v (ResolutionRuntime.pinned_eq_some.mp hw).2
      · cases hv
    · exact hp.resolved v hv
  have hconsider : ∀ source ks, OwnedSourced b k
      (Builder.consider source (Builder.visit (s.runtime c.runtime) lo) ks) := by
    intro source ks
    refine ⟨?_, ?_⟩
    · rw [resolved_consider]
      exact hvisit.resolved
    · rw [bestStale_consider]
      exact hvisit.best
  have hset : ∀ key v, (key = k → b.Sources v) →
      OwnedSourced b k { lo with resolved := lo.resolved.set key (.ok v) } := by
    intro key v hv
    refine ⟨fun w hw => ?_, hp.best⟩
    rcases Dict.get?_set_cases hw with ⟨hk, hw⟩ | hw
    · cases hw
      exact hv hk
    · exact hp.resolved w hw
  cases hm with
  | settled => exact hvisit
  | skip hl => exact hl ▸ hconsider _ _
  | attempt hl => exact hl ▸ hconsider _ _
  | keep _ hh =>
    refine ⟨?_, fun v hv => ?_⟩
    · rw [resolved_fail, resolved_keepStale]
      exact hp.resolved
    · rw [bestStale_fail] at hv
      unfold Builder.keepStale at hv
      split at hv
      · rcases Dict.get?_set_cases hv with ⟨_, rfl⟩ | hv
        · exact harvest_sources (hsource _ _ _ _ _ rfl) (.inr hh)
        · exact hp.best v hv
      · exact hp.best v hv
  | accept _ hh => exact hset _ _ fun _ => harvest_sources (hsource _ _ _ _ _ rfl) (.inl hh)
  | installWinner => cases hstoring
  | finishStale hb => exact hset _ _ fun hk => hp.best _ (hk ▸ hb)
  | finishError =>
    refine ⟨fun w hw => ?_, hp.best⟩
    rcases Dict.get?_set_cases hw with ⟨_, hw⟩ | hw
    · cases hw
    · exact hp.resolved w hw
  | _ => exact ⟨hp.resolved, hp.best⟩

end

/-- What holds of a key that detached runtime `r` forces: all its values there name sources of the
builder. -/
structure SourcedRun (b : Builder K V) (k : K) (r : ℕ) (s : State K V) : Prop where
  decides : (s.runtime r).Decides k
  memo : ∀ v, (s.runtime r).memo.get? k = some v → b.Sources v
  frames : ∀ i f, s.frame? i = some f → f.scope.runtime = r → f.body.Sourced b k

/-- No coroutine of the runtime waits for a flight of a key that it owns. -/
theorem Entered.not_joined {keys : List K} {r i : ℕ} (hs : Entered keys r i s) (hshape : Shape b s)
    {j : ℕ} {c : Scope K} {keys' : List K} {lo : ManyLocals K V} {futures : List (K × ℕ)}
    (hf : s.frame? j = some ⟨c, .resolveMany keys' lo (.joining futures)⟩) (hr : c.runtime = r)
    {k : K} (hk : k ∈ keys) (q : ℕ) : (k, q) ∉ futures := by
  intro hq
  by_cases hj : j = i
  · subst hj
    exact (hs.point c keys' lo _ hf).elim
  · have hbody : ManyShape s.Called j c keys' lo (.joining futures) := (hshape.frames j _ hf).body
    exact hbody.2.2 _ hq (hs.nested j _ hf hr hj k hk)

theorem SourcedRun.installs {excluded : Dict K (List String)} {k : K} {r : ℕ}
    (hs : SourcedRun b k r s) (hshape : Shape b s) (hd : DetachedRun excluded r s) {j : ℕ}
    {f : Frame K V} (hf : s.frame? j = some f) (hr : f.scope.runtime = r) {v : SnapshotValue K V}
    (hi : Installs b s f.body k v) : b.Sources v := by
  have hsourced := hs.frames j f hf hr
  have hrestricted := hd.frames j f hf hr
  have hbody := (hshape.frames j f hf).body
  obtain ⟨c, body⟩ := f
  dsimp only at hi hsourced hrestricted hbody
  cases hi with
  | copied h =>
    unfold Body.installing at h
    split at h
    · cases h
      exact absurd List.mem_cons_self hsourced.lookedUp
    · cases h
      exact absurd rfl hsourced.fallback
    · cases hrestricted.1
    · cases h
  | collected h => exact hsourced.results v h
  | accepted _ hh => exact harvest_sources (hbody.2.1 _ List.mem_cons_self) (.inl hh)
  | kept h => exact hsourced.best v h

/-- `hjoin` says that no coroutine of the runtime waits for a flight of the key. -/
theorem SourcedRun.step {excluded : Dict K (List String)} {k : K} {r : ℕ}
    (hs : SourcedRun b k r s) (hshape : Shape b s) (hd : DetachedRun excluded r s)
    (hjoin : ∀ j c keys lo futures, s.frame? j = some ⟨c, .resolveMany keys lo (.joining futures)⟩ →
      c.runtime = r → ∀ q, (k, q) ∉ futures)
    (h : b.step s l = some t) : SourcedRun b k r t := by
  have hstep := step_cases h
  refine ⟨hstep.decides hs.decides, ?_, ?_⟩
  · intro v hv
    rcases hstep.memo_cases hd.opened hv with hold | ⟨j, f, m, _, hf, _, hr, hi⟩
    · exact hs.memo v hold
    · exact hs.installs hshape hd hf hr hi
  · intro j f hf hr
    cases hstep.came hf with
    | @moved e g m hg hm _ hbody =>
      subst hbody
      have hsourced := hs.frames j g hg hr
      have hrestricted := hd.frames j g hg hr
      have hgbody := (hshape.frames j g hg).body
      obtain ⟨c, body⟩ := g
      dsimp only at hr hm hsourced hrestricted hgbody ⊢
      subst hr
      cases hm with
      | many hm =>
        refine hm.sourced hsourced hs.decides ?_ ?_
        · rintro child shared resolved rfl ho v hv
          obtain ⟨_, _, ⟨owned, g, hg, hscope, _⟩, _⟩ := hgbody
          obtain ⟨_, _, lo, hchild, rfl⟩ := ownedOutcome_ok ho
          rw [hchild, Option.some.injEq] at hg
          subst hg
          exact (hs.frames child _ hchild (by rw [hscope])).resolved v hv
        · rintro futures q rfl
          exact hjoin j _ _ _ _ hg rfl q
      | owned hm =>
        refine hm.sourced hsourced hs.memo ?_ hrestricted.1
        rintro source sources attempts rest fresh rfl
        exact hgbody.2.1 source List.mem_cons_self
      | work hm => cases hm <;> trivial
      | produce hm => cases hm <;> trivial
      | refresh hm => cases hm <;> trivial
    | started _ hm _ _ hsp => exact atStart_sourced (hm.spawn_atStart hsp) k
    | called _ hcall =>
      subst hcall
      exact ⟨List.not_mem_nil, rfl, nofun, nofun⟩
    | stayed _ hg => exact hs.frames j f hg hr

/-! ## Keys that are left alone -/

/-- Coroutines acquire only these keys. -/
def acquires (P : Origin → K → Prop) : Discipline K V where
  covers _ _ := True
  covers_mono _ _ _ _ _ := trivial
  asked _ _ _ := True
  acquired o _ k := P o k
  clock _ := True
  lookup _ _ _ := True
  candidate _ _ _ := True
  copy _ _ _ := True
  served _ _ _ := True
  value _ _ _ := True
  best _ _ _ := True
  winner _ _ _ := True
  error _ _ _ := True
  raised _ _ := True
  failure _ _ _ := True
  attempt _ _ _ _ := True
  derivable _ _ _ := True
  dependencies _ _ _ _ := True
  shares _ _ := True

theorem acquires_rules {P : Origin → K → Prop} {c : Scope K} {body : Body K V} {e : Event K V}
    (hrefreshed : ∀ k, P (none, s.runtimes.length) k)
    (hmissing : ∀ k, (s.runtime c.runtime).pinned k = none → P c.origin k) :
    Rules b s c body e (acquires P) where
  clock := trivial
  refreshed k _ := hrefreshed k
  missing k _ hnone := hmissing k hnone
  pinned _ _ _ _ := trivial
  revisited _ _ _ _ := trivial
  read _ _ _ _ _ _ := trivial
  isolated _ _ _ := trivial
  hit _ _ _ _ _ _ _ := trivial
  kept _ _ _ _ _ _ _ := trivial
  fallback _ _ _ _ _ := trivial
  installed _ _ _ _ := trivial
  serve _ _ _ _ _ _ _ _ _ := trivial
  joins _ _ _ _ _ _ _ := ⟨trivial, trivial⟩
  shares_self := trivial
  joinValue _ _ _ _ _ _ _ := trivial
  joinError _ _ _ _ _ _ _ := trivial
  joinRaised _ _ _ _ := trivial
  unsupported _ _ _ _ _ _ := trivial
  direct _ _ _ _ _ := trivial
  undeclared _ _ _ _ _ _ := trivial
  cyclic _ _ _ _ _ _ _ _ _ _ := trivial
  depends _ _ _ _ _ _ _ _ _ _ _ := trivial
  derives _ _ _ _ _ _ _ _ := trivial
  unresolved _ _ _ := trivial
  childRaised _ _ _ _ := trivial
  versions _ _ _ _ _ := trivial
  answered _ _ _ _ _ _ _ := trivial
  answeredBatch _ _ _ _ _ _ _ _ := trivial
  omitted _ _ _ _ := trivial
  failed _ _ _ _ _ _ _ _ := trivial
  interrupted _ _ := trivial
  refused _ _ _ _ _ _ := trivial
  stale _ _ _ _ _ _ _ := ⟨trivial, fun _ => trivial⟩
  fresh _ _ _ _ _ _ _ _ _ _ _ _ _ _ _ := trivial
  superseded _ _ _ _ := trivial
  supersedes _ _ _ _ _ _ _ _ _ := trivial
  bestStale _ _ _ _ _ _ _ _ _ := trivial
  exhausted _ _ _ := trivial
  omittedKey _ _ := trivial

/-- A coroutine stores values of keys that it acquires. -/
theorem Discipline.Holds.installs {D : Discipline K V} {called : ℕ → Scope K → Call K → Prop}
    {c : Scope K} {body : Body K V} (h : D.Holds called c body) {k : K} {v : SnapshotValue K V}
    (hi : Installs b s body k v) : D.acquired c.origin c.ancestry k := by
  cases hi with
  | copied hcopy =>
    unfold Body.installing at hcopy
    split at hcopy
    · cases hcopy
      exact h.2.1
    · cases hcopy
      exact h.2.1
    · cases hcopy
      exact h.2.1
    · cases hcopy
  | collected _ => exact h.2 _ List.mem_cons_self
  | accepted _ _ => exact h.2.2.1 _ List.mem_cons_self
  | kept _ => exact h.2.1 _ List.mem_cons_self

/-- In all runs. -/
theorem Stepped.acquires (h : Stepped b s l t) (hshape : Shape b s)
    (hs : s.Keeps (acquires fun _ _ => True)) : t.Keeps (acquires fun _ _ => True) :=
  h.keeps hshape hs (fun _ _ _ _ _ _ _ _ => acquires_rules (fun _ => trivial) fun _ _ => trivial)
    (fun _ _ _ _ _ _ _ _ hcov => absurd trivial hcov) (fun _ _ _ _ _ _ => trivial)

/-- Coroutines of runtime `r` acquire other keys than `k`. -/
def Leaves (k : K) (r : ℕ) (o : Origin) (j : K) : Prop := o.2 = r → j ≠ k

/-- Runtime `r` has pinned `v`, and none of its coroutines acquires the key. -/
structure LeftAlone (k : K) (v : SnapshotValue K V) (r : ℕ) (s : State K V) : Prop where
  opened : r < s.runtimes.length
  pinned : (s.runtime r).pinned k = some v
  keeps : s.Keeps (acquires (Leaves k r))

theorem LeftAlone.step {k : K} {v : SnapshotValue K V} {r : ℕ} (hs : LeftAlone k v r s)
    (hshape : Shape b s) (h : Stepped b s l t) : LeftAlone k v r t := by
  refine ⟨lt_of_lt_of_le hs.opened h.runtimes_length, ?_, ?_⟩
  · obtain ⟨w, hw⟩ := h.pinned_grows hs.pinned
    rcases h.memo_cases hs.opened (ResolutionRuntime.pinned_eq_some.mp hw).2 with
      hold | ⟨i, f, m, _, hf, _, hr, hi⟩
    · rw [(ResolutionRuntime.pinned_eq_some.mp hs.pinned).2, Option.some.injEq] at hold
      rw [hw, hold]
    · exact absurd rfl ((hs.keeps i f hf trivial).installs hi hr)
  · refine h.keeps hshape hs.keeps (fun i e f m _ _ _ _ => acquires_rules ?_ ?_)
      (fun _ _ _ _ _ _ _ _ hcov => absurd trivial hcov) (fun _ _ _ _ _ _ => trivial)
    · exact fun _ hnew => absurd hs.opened (Nat.not_lt.mpr (le_of_eq hnew))
    · rintro j hnone hown rfl
      rw [show f.scope.runtime = r from hown, hs.pinned] at hnone
      cases hnone

/-! ## A new runtime and its call -/

theorem runtime_opened {runtime : ResolutionRuntime K V}
    (h : b.step s (.openRuntime runtime) = some t) :
    t.runtime s.runtimes.length = runtime ∧ s.runtimes.length < t.runtimes.length ∧
      t.frames = s.frames := by
  cases step_cases h with
  | openRuntime => exact ⟨by simp [Shared.runtime], by simp, rfl⟩

/-- No coroutine runs in it before it is called. -/
theorem frame?_opened {runtime : ResolutionRuntime K V} (hopen : RuntimesOpen s)
    (h : b.step s (.openRuntime runtime) = some t) {i : ℕ} {f : Frame K V}
    (hf : t.frame? i = some f) : f.scope.runtime ≠ s.runtimes.length := by
  rw [State.frame?, (runtime_opened h).2.2] at hf
  exact Nat.ne_of_lt (hopen i f hf)

/-- A new runtime leaves alone what it is opened with. -/
theorem leftAlone_open (hkeeps : s.Keeps (acquires fun _ _ => True)) (hshape : Shape b s)
    (hopen : RuntimesOpen s) {runtime : ResolutionRuntime K V} {k : K} {v : SnapshotValue K V}
    (hpinned : runtime.pinned k = some v) (h : b.step s (.openRuntime runtime) = some t) :
    LeftAlone k v s.runtimes.length t := by
  obtain ⟨hruntime, hlt, _⟩ := runtime_opened h
  refine ⟨hlt, by rw [hruntime]; exact hpinned, fun i f hf _ => ?_⟩
  have hother := frame?_opened hopen h hf
  exact ((step_cases h).acquires hshape hkeeps i f hf trivial).imp
    { acquired := fun _ _ _ hown => absurd hown hother }

theorem detachedRun_open (hopen : RuntimesOpen s) {runtime : ResolutionRuntime K V}
    {excluded : Dict K (List String)} (hruntime : runtime.Detached excluded)
    (h : b.step s (.openRuntime runtime) = some t) :
    DetachedRun excluded s.runtimes.length t := by
  obtain ⟨hsame, hlt, _⟩ := runtime_opened h
  exact ⟨hlt, by rw [hsame]; exact hruntime,
    fun _ _ hf hr => absurd hr (frame?_opened hopen h hf)⟩

theorem sourcedRun_open (hopen : RuntimesOpen s) {runtime : ResolutionRuntime K V} {k : K}
    (hdecides : runtime.Decides k) (hnew : runtime.memo.get? k = none)
    (h : b.step s (.openRuntime runtime) = some t) : SourcedRun b k s.runtimes.length t := by
  obtain ⟨hsame, _⟩ := runtime_opened h
  refine ⟨by rw [hsame]; exact hdecides, ?_, fun _ _ hf hr => absurd hr (frame?_opened hopen h hf)⟩
  intro v hv
  rw [hsame, hnew] at hv
  cases hv

/-- A call in a new runtime that forces all its keys. -/
theorem entered_call (hopen : RuntimesOpen s) {runtime : ResolutionRuntime K V}
    {deadline : Option ℚ} {targets : List K}
    (hforced : ∀ k ∈ targets, k ∈ runtime.forceRefreshKeys)
    (h : b.step s (.openRuntime runtime) = some t)
    (hcall : b.step t (.call s.runtimes.length deadline targets) = some u) :
    Entered (Dict.fromKeys targets) s.runtimes.length t.frames.length u := by
  obtain ⟨hsame, hlt, _⟩ := runtime_opened h
  obtain ⟨_, hcalled⟩ := called_call hcall
  have hold : ∀ j f, u.frame? j = some f → f.scope.runtime = s.runtimes.length →
      j = t.frames.length := by
    intro j f hf hr
    cases (step_cases hcall).came hf with
    | called hi => exact hi
    | stayed _ hf => exact absurd hr (frame?_opened hopen h hf)
  have hruntime : u.runtime s.runtimes.length = runtime := by
    rw [(step_cases hcall).runtime_still hlt (fun _ _ _ hl => by cases hl), hsame]
  refine ⟨lt_of_lt_of_le hlt (step_cases hcall).runtimes_length, ⟨deadline, hcalled⟩, ?_,
    fun _ _ _ _ _ _ => hold, fun j f hf hr hne => absurd (hold j f hf hr) hne⟩
  intro c keys lo p hf
  cases (step_cases hcall).came hf with
  | called _ hframe =>
    cases hframe
    refine ⟨rfl, fun k hk => ?_⟩
    rw [hruntime]
    exact hforced k (Dict.mem_fromKeys.mp hk)
  | stayed _ hf => exact absurd (lt_of_frame? hf) (lt_irrefl _)

end
end Coalestra
