import Mathlib.Data.List.ProdSigma
import Coalestra.Orchestration.ForceRefresh
import Coalestra.Orchestration.ForcedCalls
import Coalestra.Orchestration.SourceChain

/-! # The skew fallback

`_retry_inconsistent_sources`: while the selected values lie too far apart, the source of the oldest
one is excluded for its key, and the key is resolved again with everything derived from it. Every
turn spends one pair of a key and a source, and a key has at most one value that does not name a
source of the builder (`attempts_length_le`). -/

namespace Coalestra
set_option autoImplicit false
set_option maxHeartbeats 250000

/-! ## Pairs of keys and sources -/

/-- No more pairs than keys times names and one more, if every key has one other name at most. -/
theorem attempts_length_le {K : Type} [DecidableEq K] {attempted : List (K × String)}
    {keys : List K} {names : List String} (hnodup : attempted.Nodup)
    (hkeys : ∀ x ∈ attempted, x.1 ∈ keys)
    (hone : ∀ k n n', (k, n) ∈ attempted → (k, n') ∈ attempted → n ∉ names → n' ∉ names → n = n') :
    attempted.length ≤ keys.length * (names.length + 1) := by
  let known (n : String) : Option String := if n ∈ names then some n else none
  let place (x : K × String) : K × Option String := (x.1, known x.2)
  have hinj : ∀ x ∈ attempted, ∀ y ∈ attempted, place x = place y → x = y := by
    rintro ⟨k, n⟩ hx ⟨k', n'⟩ hy heq
    rw [Prod.mk.injEq] at heq
    obtain ⟨rfl, hname⟩ := heq
    by_cases hn : n ∈ names
    · by_cases hn' : n' ∈ names
      · simpa [known, hn, hn'] using hname
      · simp [known, hn, hn'] at hname
    · by_cases hn' : n' ∈ names
      · simp [known, hn, hn'] at hname
      · rw [hone k n n' hx hy hn hn']
  have hsub : attempted.map place ⊆ keys ×ˢ (none :: names.map some) := by
    intro y hy
    obtain ⟨x, hx, rfl⟩ := List.mem_map.mp hy
    refine List.mem_product.mpr ⟨hkeys x hx, ?_⟩
    by_cases hn : x.2 ∈ names
    · simp [known, hn]
    · simp [known, hn]
  have hlen := ((hnodup.map_on hinj).subperm hsub).length_le
  rw [List.length_map, List.length_product, List.length_cons, List.length_map] at hlen
  exact hlen

section
variable {K V : Type} [DecidableEq K]

/-- Every source attempted for a key is excluded for it. -/
theorem attempted_excluded {attempted : List (K × String)} {k : K} {n : String} :
    n ∈ ((attempted.foldl (fun d e => d.set e.1 ((d.get? e.1).getD [] ++ [e.2]))
      (.empty : Dict K (List String))).get? k).getD [] ↔ (k, n) ∈ attempted := by
  have aux : ∀ (attempted : List (K × String)) (d : Dict K (List String)),
      n ∈ ((attempted.foldl (fun d e => d.set e.1 ((d.get? e.1).getD [] ++ [e.2])) d).get? k).getD [] ↔
        n ∈ (d.get? k).getD [] ∨ (k, n) ∈ attempted := by
    intro attempted
    induction attempted with
    | nil => simp
    | cons x attempted ih =>
      intro d
      rw [List.foldl_cons, ih, List.mem_cons]
      by_cases hk : k = x.1
      · subst hk
        simp [Prod.ext_iff, or_assoc]
      · rw [Dict.get?_set_ne _ _ hk]
        simp [Prod.ext_iff, hk]
  simpa using aux attempted .empty

/-! ## One turn -/

variable {b : Builder K V}

/-- What the consistency check finds before the next turn: the values are those of the memo, no
source was attempted twice for a key, and a key with an attempted source has a value that names a
source of the builder. -/
structure AtHead (b : Builder K V) (c : RevalidateCall K V)
    (values memo : Dict K (SnapshotValue K V)) (attempted : List (K × String)) : Prop where
  matched : ∀ k ∈ c.targets, ∃ v, values.get? k = some v ∧ memo.get? k = some v
  nodup : attempted.Nodup
  keys : ∀ x ∈ attempted, x.1 ∈ c.requested
  named : ∀ x ∈ attempted, ∀ v, values.get? x.1 = some v → b.Sources v
  one : ∀ k n n', (k, n) ∈ attempted → (k, n') ∈ attempted →
    n ∉ b.sources.map Source.name → n' ∉ b.sources.map Source.name → n = n'

/-- A turn: the oldest key gives up the source of its value, and is resolved again together with
the targets that its memo entry reaches. -/
structure TurnOf (c : RevalidateCall K V) (values memo : Dict K (SnapshotValue K V))
    (attempted : List (K × String)) (r : RetryState K V) : Prop where
  state : r.values = values ∧ r.memo = memo
  oldest : ∃ v, values.get? r.oldestKey = some v ∧ (r.oldestKey, v.source) ∉ attempted ∧
    r.attempted = attempted ++ [(r.oldestKey, v.source)]
  selected : r.oldestKey ∈ c.requested
  affected : ∀ k ∈ r.targets, k ∈ affectedKeysFromMemo [r.oldestKey] memo
  retried : r.oldestKey ∈ r.targets
  covers : ∀ k ∈ c.targets, k ∈ affectedKeysFromMemo [r.oldestKey] memo → k ∈ r.targets

theorem checkConsistency_turn {s : Session K V} {c c' : RevalidateCall K V}
    {values memo : Dict K (SnapshotValue K V)} {attempted : List (K × String)} {r : RetryState K V}
    (h : (s.checkConsistency c values memo attempted).phase = some (.retrying c' r)) :
    c' = c ∧ TurnOf c values memo attempted r := by
  unfold Session.checkConsistency at h
  split at h
  · unfold Session.propose at h
    split at h
    · cases h
    · split at h <;> cases h
  · rename_i violation hviolation
    split at h
    · unfold Session.retry at h
      split at h
      · cases h
      · rename_i oldest holdest
        split at h
        · cases h
        · rename_i hnew
          rw [not_or] at hnew
          obtain ⟨policy, _, hfound⟩ := Option.bind_eq_some_iff.mp hviolation
          have hself : violation.oldestKey ∈ affectedKeysFromMemo [violation.oldestKey] memo :=
            affectedKeysFromMemo_complete ⟨_, List.mem_singleton_self _, .refl⟩
          cases h
          refine ⟨rfl, ⟨rfl, rfl⟩, ⟨oldest, holdest, hnew.2, rfl⟩, (oldestKey_mem hfound).1, ?_, ?_,
            ?_⟩
          · intro k hk
            dsimp only at hk
            split at hk
            · exact of_decide_eq_true (List.mem_filter.mp hk).2
            · rcases List.mem_cons.mp hk with rfl | hk
              · exact hself
              · exact of_decide_eq_true (List.mem_filter.mp hk).2
          · dsimp only
            split
            · assumption
            · exact List.mem_cons_self
          · intro k hk haffected
            have htarget : k ∈ c.targets.filter fun k => decide (k ∈ affectedKeysFromMemo
                [violation.oldestKey] memo) := List.mem_filter.mpr ⟨hk, decide_eq_true haffected⟩
            dsimp only
            split
            · exact htarget
            · exact List.mem_cons_of_mem _ htarget
    · cases h

/-- The attempts of the loop after a turn has begun. -/
structure OneAttemptEach (b : Builder K V) (c : RevalidateCall K V) (r : RetryState K V) : Prop where
  nodup : r.attempted.Nodup
  keys : ∀ x ∈ r.attempted, x.1 ∈ c.requested
  named : ∀ x ∈ r.attempted, x.1 ≠ r.oldestKey → ∀ v, r.values.get? x.1 = some v → b.Sources v
  one : ∀ k n n', (k, n) ∈ r.attempted → (k, n') ∈ r.attempted →
    n ∉ b.sources.map Source.name → n' ∉ b.sources.map Source.name → n = n'

/-- A turn attempts a source that is new for the key. -/
theorem AtHead.turn {c : RevalidateCall K V} {values memo : Dict K (SnapshotValue K V)}
    {attempted : List (K × String)} {r : RetryState K V} (h : AtHead b c values memo attempted)
    (hr : TurnOf c values memo attempted r) : OneAttemptEach b c r := by
  obtain ⟨oldest, holdest, hnew, hattempted⟩ := hr.oldest
  -- A key that was attempted before has a value that names a source by now.
  have hfirst : ∀ n, (r.oldestKey, n) ∈ attempted → oldest.source ∈ b.sources.map Source.name :=
    fun n hn => h.named _ hn oldest holdest
  have hmem : ∀ {x}, x ∈ r.attempted → x ∈ attempted ∨ x = (r.oldestKey, oldest.source) := by
    intro x hx
    rw [hattempted, List.mem_append, List.mem_singleton] at hx
    exact hx
  refine ⟨?_, ?_, ?_, ?_⟩
  · rw [hattempted, List.nodup_append]
    refine ⟨h.nodup, List.nodup_singleton _, ?_⟩
    rintro x hx y hy rfl
    rw [List.mem_singleton.mp hy] at hx
    exact hnew hx
  · intro x hx
    rcases hmem hx with hx | rfl
    · exact h.keys x hx
    · exact hr.selected
  · intro x hx hother v hv
    rw [hr.state.1] at hv
    rcases hmem hx with hx | rfl
    · exact h.named x hx v hv
    · exact absurd rfl hother
  · intro k n n' hn hn' hout hout'
    rcases hmem hn with hold | hlast
    · rcases hmem hn' with hold' | hlast'
      · exact h.one k n n' hold hold' hout hout'
      · cases hlast'
        exact absurd (hfirst n hold) hout'
    · rcases hmem hn' with hold' | hlast'
      · cases hlast
        exact absurd (hfirst n' hold') hout
      · cases hlast
        cases hlast'
        rfl

theorem OneAttemptEach.length_le {c : RevalidateCall K V} {r : RetryState K V} (h : OneAttemptEach b c r) :
    r.attempted.length ≤ c.requested.length * (b.sources.length + 1) := by
  have hlen := attempts_length_le h.nodup h.keys h.one
  rwa [List.length_map] at hlen

/-! ## The loop on its builder -/

/-- What every builder at work satisfies. -/
structure AtWork (b : Builder K V) (s : State K V) : Prop where
  shape : Shape b s
  runtimes : RuntimesOpen s
  keeps : s.Keeps (acquires fun _ _ => True)

theorem AtWork.step {s t : State K V} {l : Label K V} (hs : AtWork b s)
    (h : b.step s l = some t) : AtWork b t :=
  ⟨(step_cases h).shape hs.shape, (step_cases h).runtimesOpen hs.runtimes,
    (step_cases h).acquires hs.shape hs.keeps⟩

theorem atWork_initial (b : Builder K V) (now : ℚ) (cache : AsyncMemoryCache K V)
    (revisions : List (Dict K ℕ)) : AtWork b (.initial now cache revisions) := by
  refine ⟨shape_initial b now cache revisions, ?_, ?_⟩
  · intro i f hf
    simp [State.frame?, State.initial] at hf
  · intro i f hf
    simp [State.frame?, State.initial] at hf

/-- The awaited call of a turn: it forces the retried keys, whose values name sources of the
builder, and leaves the other targets alone. -/
structure TurnRun (b : Builder K V) (c : RevalidateCall K V) (r : RetryState K V) (n i : ℕ)
    (s : State K V) : Prop where
  entered : Entered (Dict.fromKeys r.targets) n i s
  detached : DetachedRun r.runtime.excludedSources n s
  sourced : ∀ k ∈ r.targets, SourcedRun b k n s
  rest : ∀ k ∈ c.targets, k ∉ r.targets → ∃ v, r.values.get? k = some v ∧ LeftAlone k v n s

theorem fromKeys_nonempty {keys : List K} {k : K} (hk : k ∈ keys) : Dict.fromKeys keys ≠ [] :=
  List.ne_nil_of_mem (Dict.mem_fromKeys.mpr hk)

theorem TurnRun.step {c : RevalidateCall K V} {r : RetryState K V} {n i : ℕ} {s t : State K V}
    {l : Label K V} (hs : TurnRun b c r n i s) (hwork : AtWork b s) (hr : r.oldestKey ∈ r.targets)
    (hl : Undisturbed n i s l) (h : b.step s l = some t) : TurnRun b c r n i t := by
  refine ⟨hs.entered.step (fromKeys_nonempty hr) hl h, hs.detached.step h, fun k hk => ?_,
    fun k hk hother => ?_⟩
  · exact (hs.sourced k hk).step hwork.shape hs.detached
      (fun j cj keys lo futures hf hown q => hs.entered.not_joined hwork.shape hf hown
        (Dict.mem_fromKeys.mpr hk) q) h
  · obtain ⟨v, hv, halone⟩ := hs.rest k hk hother
    exact ⟨v, hv, halone.step hwork.shape (step_cases h)⟩

/-- The call that begins a turn. -/
theorem turnRun_call {c : RevalidateCall K V} {values memo : Dict K (SnapshotValue K V)}
    {attempted : List (K × String)} {r : RetryState K V} {s t u : State K V}
    {deadline : Option ℚ} (hwork : AtWork b s) (hhead : AtHead b c values memo attempted)
    (hr : TurnOf c values memo attempted r) (h : b.step s (.openRuntime r.runtime) = some t)
    (hcall : b.step t (.call s.runtimes.length deadline r.targets) = some u) :
    TurnRun b c r s.runtimes.length t.frames.length u := by
  have hmemo : ∀ k, r.runtime.memo.get? k =
      if k ∈ affectedKeysFromMemo [r.oldestKey] memo then none else memo.get? k := by
    intro k
    rw [RetryState.runtime, Dict.get?_filter, hr.state.2]
    by_cases hk : k ∈ affectedKeysFromMemo [r.oldestKey] memo <;> simp [hk]
  have hforced : r.runtime.forceRefreshKeys = affectedKeysFromMemo [r.oldestKey] memo := by
    rw [RetryState.runtime, hr.state.2]
  have hdetached := detachedRun_open hwork.runtimes
    (⟨rfl, rfl, rfl⟩ : r.runtime.Detached r.runtime.excludedSources) h
  refine ⟨?_, hdetached.step hcall, fun k hk => ?_, fun k hk hother => ?_⟩
  · exact entered_call hwork.runtimes (fun k hk => hforced ▸ hr.affected k hk) h hcall
  · refine (sourcedRun_open hwork.runtimes (.inl (hforced ▸ hr.affected k hk)) ?_ h).step
      (hwork.step h).shape hdetached ?_ hcall
    · rw [hmemo k, if_pos (hr.affected k hk)]
    · exact fun j cj keys lo futures hf hown => absurd hown (frame?_opened hwork.runtimes h hf)
  · obtain ⟨v, hv, hin⟩ := hhead.matched k hk
    have hkept : k ∉ affectedKeysFromMemo [r.oldestKey] memo := fun ha => hother (hr.covers k hk ha)
    refine ⟨v, by rw [hr.state.1]; exact hv, ?_⟩
    refine (leftAlone_open hwork.keeps hwork.shape hwork.runtimes ?_ h).step
      (hwork.step h).shape (step_cases hcall)
    rw [ResolutionRuntime.pinned_eq_some, hforced, hmemo k, if_neg hkept]
    exact ⟨hkept, hin⟩

namespace SnapshotSession
variable {S S' : SnapshotSession K V}

/-- The revalidation goes on. `_resolve_many` awaits nothing once it goes through its results, and
the session takes them over at once; nobody else has the runtime it waits for. -/
structure Continues (S : SnapshotSession K V) (l : SnapshotSessionLabel K V) : Prop where
  busy : S.session.phase.isSome
  undisturbed : ∀ m n i, l = .builder m → S.awaiting.isSome → S.staged = some (n, i) →
    Undisturbed n i S.builder.toState m

/-- What holds in the phases of a forced revalidation `c`. -/
def Turning (b : Builder K V) (c : RevalidateCall K V) (S : SnapshotSession K V) :
    Option (CallPhase K V) → Prop
  | some (.staging c') => c' = c ∧ ∃ n i, S.staged = some (n, i) ∧
      Entered (Dict.fromKeys c.targets) n i S.builder.toState
  | some (.retrying c' r) => c' = c ∧ OneAttemptEach b c r ∧ r.oldestKey ∈ r.targets ∧
      ∃ n i, S.staged = some (n, i) ∧ TurnRun b c r n i S.builder.toState
  | _ => True

structure Falling (b : Builder K V) (c : RevalidateCall K V) (S : SnapshotSession K V) : Prop where
  work : AtWork b S.builder.toState
  selected : c.requested ≠ [] ∧ ∀ k ∈ c.requested, k ∈ c.targets
  phase : S.Turning b c S.session.phase

theorem turning_left {c : RevalidateCall K V} {phase : Option (CallPhase K V)}
    (h : phase.bind CallPhase.revalidation = none) : S.Turning b c phase := by
  cases phase with
  | none => trivial
  | some phase => cases phase <;> trivial

theorem Falling.builder {c : RevalidateCall K V} {l : Label K V} {U : Traced K V}
    (hS : S.Falling b c) (hl : S.Continues (.builder l)) (h : b.tracedStep S.builder l = some U) :
    ({ S with builder := U } : SnapshotSession K V).Falling b c := by
  have hstep := tracedStep_step h
  refine ⟨hS.work.step hstep, hS.selected, ?_⟩
  have hphase := hS.phase
  have hl := hl.undisturbed l
  unfold awaiting at hl
  show ({ S with builder := U } : SnapshotSession K V).Turning b c S.session.phase
  cases hp : S.session.phase with
  | none => trivial
  | some phase =>
    rw [hp] at hphase hl
    cases phase with
    | staging c' =>
      obtain ⟨rfl, n, i, hstaged, hentered⟩ := hphase
      obtain ⟨k, hk⟩ := List.exists_mem_of_ne_nil _ hS.selected.1
      exact ⟨rfl, n, i, hstaged, hentered.step (fromKeys_nonempty (hS.selected.2 k hk))
        (hl n i rfl rfl hstaged) hstep⟩
    | retrying c' r =>
      obtain ⟨rfl, hattempts, hretried, n, i, hstaged, hrun⟩ := hphase
      exact ⟨rfl, hattempts, hretried, n, i, hstaged,
        hrun.step hS.work hretried (hl n i rfl rfl hstaged) hstep⟩
    | _ => trivial

theorem await_turn {c : RevalidateCall K V} {values memo : Dict K (SnapshotValue K V)}
    {attempted : List (K × String)} {r : RetryState K V} (hwork : AtWork b S.builder.toState)
    (hhead : AtHead b c values memo attempted) (hr : TurnOf c values memo attempted r)
    (h : S.await b r.runtime r.targets = some S') :
    S'.session = S.session ∧ AtWork b S'.builder.toState ∧
      ∃ n i, S'.staged = some (n, i) ∧ TurnRun b c r n i S'.builder.toState := by
  obtain ⟨T, hopen, h⟩ := Option.bind_eq_some_iff.mp h
  obtain ⟨U, hcall, rfl⟩ := Option.map_eq_some_iff.mp h
  have hopen := tracedStep_step hopen
  have hcall := tracedStep_step hcall
  exact ⟨rfl, (hwork.step hopen).step hcall, _, _, rfl,
    turnRun_call hwork hhead hr hopen hcall⟩

/-- What the awaited call returned is in its memo. -/
theorem outcome_returned {c : RevalidateCall K V} {keys keys' : List K} {n i : ℕ}
    {o : ResolveOutcome K V} (hawait : S.awaiting = some (c, keys))
    (hstaged : S.staged = some (n, i)) (he : Entered keys' n i S.builder.toState)
    (h : S.outcome = some o) :
    o.keys = keys ∧ o.memo = (S.builder.runtime n).memo ∧ Extends o.values o.memo := by
  unfold outcome at h
  rw [hawait, hstaged] at h
  simp only [Option.bind_some] at h
  split at h
  · rename_i values errors hmany
    obtain ⟨ci, ks, lo, hf, rfl, rfl⟩ := manyOutcome_ok hmany
    unfold ResolveOutcome.of at h
    split at h
    · cases h
      exact ⟨rfl, rfl, he.point ci ks lo .done hf⟩
    · cases h
  · cases h

/-- Without errors every key has a value. -/
theorem outcome_value {o : ResolveOutcome K V} (herrors : o.errors.entries = []) {k : K}
    (hk : k ∈ o.keys) : ∃ v, o.values.get? k = some v := by
  rcases (o.covers k).mp hk with hvalue | herror
  · exact Dict.mem_keys.mp hvalue
  · rw [Dict.keys, herrors] at herror
    cases herror

theorem head_staged {c : RevalidateCall K V} {n i : ℕ} {o : ResolveOutcome K V}
    (hphase : S.session.phase = some (.staging c)) (hstaged : S.staged = some (n, i))
    (he : Entered (Dict.fromKeys c.targets) n i S.builder.toState) (h : S.outcome = some o)
    (herrors : o.errors.entries = []) : AtHead b c o.values o.memo [] := by
  have hawait : S.awaiting = some (c, c.targets) := by
    unfold awaiting
    rw [hphase]
  obtain ⟨hkeys, _, hin⟩ := outcome_returned hawait hstaged he h
  refine ⟨fun k hk => ?_, .nil, nofun, nofun, nofun⟩
  obtain ⟨v, hv⟩ := outcome_value herrors (hkeys ▸ hk)
  exact ⟨v, hv, hin k v hv⟩

theorem head_turned {c : RevalidateCall K V} {r : RetryState K V} {n i : ℕ}
    {o : ResolveOutcome K V} (hphase : S.session.phase = some (.retrying c r))
    (hstaged : S.staged = some (n, i)) (hattempts : OneAttemptEach b c r)
    (hrun : TurnRun b c r n i S.builder.toState) (h : S.outcome = some o)
    (herrors : o.errors.entries = []) (holdest : r.oldestKey ∈ o.values.keys) :
    AtHead b c (r.values.update o.values) o.memo r.attempted := by
  have hawait : S.awaiting = some (c, r.targets) := by
    unfold awaiting
    rw [hphase]
  obtain ⟨hkeys, hmemo, hin⟩ := outcome_returned hawait hstaged hrun.entered h
  have hretried : ∀ {k v}, o.values.get? k = some v → k ∈ r.targets := fun hv =>
    hkeys ▸ (o.covers _).mpr (.inl (Dict.mem_keys_of_get? hv))
  refine ⟨fun k hk => ?_, hattempts.nodup, hattempts.keys, fun x hx v hv => ?_, hattempts.one⟩
  · by_cases htarget : k ∈ r.targets
    · obtain ⟨v, hv⟩ := outcome_value herrors (hkeys ▸ htarget)
      exact ⟨v, by rw [Dict.get?_update, hv]; rfl, hin k v hv⟩
    · obtain ⟨v, hv, halone⟩ := hrun.rest k hk htarget
      have hnone : o.values.get? k = none := by
        rw [Option.eq_none_iff_forall_ne_some]
        exact fun w hw => htarget (hretried hw)
      refine ⟨v, by rw [Dict.get?_update, hnone]; exact hv, ?_⟩
      rw [hmemo]
      exact (ResolutionRuntime.pinned_eq_some.mp halone.pinned).2
  · rw [Dict.get?_update] at hv
    cases hnew : o.values.get? x.1 with
    | some w =>
      rw [hnew, Option.some_or, Option.some.injEq] at hv
      subst hv
      exact (hrun.sourced x.1 (hretried hnew)).memo w (hmemo ▸ hin x.1 w hnew)
    | none =>
      rw [hnew, Option.none_or] at hv
      refine hattempts.named x hx (fun hsame => ?_) v hv
      obtain ⟨w, hw⟩ := Dict.mem_keys.mp holdest
      rw [← hsame, hnew] at hw
      cases hw

/-- The pairs attempted so far: one for every turn. -/
def attempted (S : SnapshotSession K V) : List (K × String) :=
  match S.session.phase with
  | some (.retrying _ r) => r.attempted
  | _ => []

/-- After `attempted` the loop takes one more turn, or ends. -/
structure Turned (b : Builder K V) (c : RevalidateCall K V) (attempted : List (K × String))
    (S : SnapshotSession K V) : Prop where
  falling : S.Falling b c
  grown : ∀ c' r, S.session.phase = some (.retrying c' r) → ∃ v, r.attempted = attempted ++ [v]
  left : ∀ c', S.session.phase ≠ some (.staging c')

theorem turned_left {c : RevalidateCall K V} {attempted : List (K × String)}
    (hwork : AtWork b S.builder.toState)
    (hselected : c.requested ≠ [] ∧ ∀ k ∈ c.requested, k ∈ c.targets)
    (hretry : ∀ c' r, S.session.phase ≠ some (.retrying c' r))
    (hstage : ∀ c', S.session.phase ≠ some (.staging c')) : S.Turned b c attempted := by
  refine ⟨⟨hwork, hselected, ?_⟩, fun c' r hp => absurd hp (hretry c' r), hstage⟩
  unfold Turning
  split
  · exact absurd ‹_› (hstage _)
  · exact absurd ‹_› (hretry _ _)
  · trivial

/-- What the consistency check leads to. -/
theorem Falling.check {c : RevalidateCall K V} {values memo : Dict K (SnapshotValue K V)}
    {attempted : List (K × String)} {s : Session K V} (hwork : AtWork b S.builder.toState)
    (hselected : c.requested ≠ [] ∧ ∀ k ∈ c.requested, k ∈ c.targets)
    (hhead : AtHead b c values memo attempted)
    (hs : s = S.session.checkConsistency c values memo attempted)
    (h : (match s.phase with
      | some (.retrying _ r) => ({ S with session := s }).await b r.runtime r.targets
      | _ => some { S with session := s }) = some S') : S'.Turned b c attempted := by
  have hcases := checkConsistency_cases S.session c values memo attempted
  rw [← hs] at hcases
  -- Apart from a turn nothing is awaited.
  have hother : (∀ c' r, s.phase ≠ some (.retrying c' r)) → (∀ c', s.phase ≠ some (.staging c')) →
      S'.Turned b c attempted := by
    intro hretry hstage
    split at h
    · exact absurd ‹_› (hretry _ _)
    · cases h
      exact turned_left hwork hselected hretry hstage
  rcases hcases with ⟨_, _, _, hphase⟩ | ⟨r, _, _, _, hphase⟩ | hphase | ⟨e, hphase⟩
  · exact hother (by rw [hphase]; nofun) (by rw [hphase]; nofun)
  · obtain ⟨_, hturn⟩ := checkConsistency_turn (hs ▸ hphase)
    rw [hphase] at h
    obtain ⟨hsession, hwork', n, i, hstaged, hrun⟩ :=
      await_turn (S := { S with session := s }) hwork hhead hturn h
    have hphase' : S'.session.phase = some (.retrying c r) := by rw [hsession, hphase]
    refine ⟨⟨hwork', hselected, ?_⟩, ?_, ?_⟩
    · rw [hphase']
      exact ⟨rfl, hhead.turn hturn, hturn.retried, n, i, hstaged, hrun⟩
    · rintro c' r' hp
      rw [hphase'] at hp
      cases hp
      obtain ⟨_, _, _, hattempted⟩ := hturn.oldest
      exact ⟨_, hattempted⟩
    · rw [hphase']
      nofun
  · exact hother (by rw [hphase]; nofun) (by rw [hphase]; nofun)
  · exact hother (by rw [hphase]; nofun) (by rw [hphase]; nofun)

theorem Falling.resolved {c : RevalidateCall K V} {leftovers : List K} (hS : S.Falling b c)
    (h : S.step b (.resolved leftovers) = some S') : S'.Turned b c S.attempted := by
  obtain ⟨o, ho, h⟩ := Option.bind_eq_some_iff.mp h
  obtain ⟨s, hs, h⟩ := Option.bind_eq_some_iff.mp h
  have hphase := hS.phase
  have hstaged := @head_staged K V _ b S
  have hturned := @head_turned K V _ b S
  unfold attempted
  -- A resolution that reports errors leaves the loop.
  have hleft : ∀ phase, s.phase = some phase → (∀ c' r, phase ≠ .retrying c' r) →
      (∀ c', phase ≠ .staging c') → ∀ pairs, S'.Turned b c pairs := by
    intro phase hp hretry hstage pairs
    rw [hp] at h
    have hS' : S' = { S with session := s } := by
      split at h
      · cases Option.some.inj ‹some phase = _›
        exact absurd rfl (hretry _ _)
      · exact (Option.some.inj h).symm
    subst hS'
    refine turned_left hS.work hS.selected ?_ ?_
    · intro c' r hp'
      rw [show s.phase = _ from hp', Option.some.injEq] at hp
      exact hretry c' r hp.symm
    · intro c' hp'
      rw [show s.phase = _ from hp', Option.some.injEq] at hp
      exact hstage c' hp.symm
  simp only [sessionStep, Session.onResolved] at hs
  split at hs
  · split at hs
    · exact hleft _ (congrArg Session.phase (Option.some.inj hs)).symm (by simp) (by simp) _
    · cases hs
  · rename_i c' hp
    rw [hp] at hphase
    obtain ⟨rfl, n, i, hat, hentered⟩ := hphase
    rw [hp]
    split at hs
    · split at hs
      · rename_i herrors
        exact Falling.check hS.work hS.selected (hstaged hp hat hentered ho herrors)
          (Option.some.inj hs).symm h
      · exact hleft _ (congrArg Session.phase (Option.some.inj hs)).symm (by simp) (by simp) _
    · cases hs
  · rename_i c' r hp
    rw [hp] at hphase
    obtain ⟨rfl, hattempts, _, n, i, hat, hrun⟩ := hphase
    rw [hp]
    split at hs
    · split at hs
      · rename_i herrors
        exact Falling.check hS.work hS.selected
          (hturned hp hat hattempts hrun ho herrors.1 herrors.2) (Option.some.inj hs).symm h
      · exact hleft _ (congrArg Session.phase (Option.some.inj hs)).symm (by simp) (by simp) _
    · cases hs
  · cases hs

/-- Apart from the awaited calls the loop stays where it is, or is left. -/
theorem Falling.session {c : RevalidateCall K V} {e : SessionEvent K V} (hS : S.Falling b c)
    (hbusy : S.session.phase.isSome) (h : S.step b (.session e) = some S') :
    S'.Falling b c ∧ (S'.session.phase = S.session.phase ∨ S'.session.revalidation = none) := by
  cases step_session h with
  | @alone s hs hS' hawait =>
    subst hS'
    have hphase := session_aside hs hbusy fun o leftovers he => by
      have hnone := hawait o leftovers he
      unfold awaiting at hnone
      exact ⟨fun c hp => by simp [hp] at hnone, fun c r hp => by simp [hp] at hnone⟩
    refine ⟨⟨hS.work, hS.selected, ?_⟩, hphase⟩
    rcases hphase with hsame | hleft
    · show Turning b c _ s.phase
      rw [hsame]
      exact hS.phase
    · exact turning_left hleft
  | called he hs =>
    subst he
    obtain ⟨phase, hphase⟩ := Option.isSome_iff_exists.mp hbusy
    simp [sessionStep, Session.locked, hphase] at hs

theorem Falling.step {c : RevalidateCall K V} {l : SnapshotSessionLabel K V}
    (hS : S.Falling b c) (hl : S.Continues l) (h : S.step b l = some S') : S'.Falling b c := by
  cases l with
  | builder l =>
    obtain ⟨U, hU, rfl⟩ := Option.map_eq_some_iff.mp h
    exact hS.builder hl hU
  | session e => exact (hS.session hl.busy h).1
  | resolved leftovers => exact (hS.resolved h).falling

/-! ## Whole runs of the loop -/

theorem beginRevalidate_call {s : Session K V} {keys : List K} {strict forceRefresh : Bool}
    {p : Option SnapshotConsistencyPolicy} {q : Option (Dict K (SnapshotValue K V) → Bool)}
    {c : RevalidateCall K V}
    (h : (s.beginRevalidate keys strict forceRefresh p q).phase = some (.staging c)) :
    c.requested = Dict.fromKeys keys ∧ c.requested ≠ [] ∧ (∀ k ∈ c.requested, k ∈ c.targets) ∧
      (∀ k ∈ c.targets, k ∈ c.affected) ∧ c.forceRefresh = forceRefresh ∧
      c.consistencyPolicy = p := by
  have hsome : (s.beginRevalidate keys strict forceRefresh p q).phase.isSome := by rw [h]; rfl
  obtain ⟨c', hc', _, haffected, htargets⟩ := beginRevalidate_staging hsome
  rw [hc'] at h
  cases h
  unfold Session.beginRevalidate at hc'
  dsimp only at hc'
  split at hc'
  · cases congrArg Session.phase hc'
  · split at hc'
    · cases congrArg Session.phase hc'
    · split at hc'
      · cases congrArg Session.phase hc'
      · rename_i hne _
        cases congrArg Session.phase hc'
        exact ⟨rfl, hne, fun k hk => htargets k (.inl (Dict.mem_fromKeys.mp hk)), haffected, rfl,
          rfl⟩

theorem begin_falling {keys : List K} {strict : Bool} {p : Option SnapshotConsistencyPolicy}
    {q : Option (Dict K (SnapshotValue K V) → Bool)} (hwork : AtWork b S.builder.toState)
    (h : S.step b (.session (.revalidate keys strict true p q)) = some S')
    (hbusy : S'.session.phase.isSome) :
    ∃ c, S'.Falling b c ∧ c.requested = Dict.fromKeys keys ∧ c.consistencyPolicy = p ∧
      S'.session.phase = some (.staging c) := by
  have hbegun : ∀ s, sessionStep S.session (.revalidate keys strict true p q) = some s →
      s = S.session.beginRevalidate keys strict true p q := by
    intro s hs
    simp only [sessionStep, Session.locked] at hs
    split at hs
    · exact (Option.some.inj hs).symm
    · cases hs
  cases step_session h with
  | @alone s hs hS' _ hidle =>
    subst hS'
    have hstart := hbusy
    rw [hbegun s hs] at hstart
    obtain ⟨c, hc, _⟩ := beginRevalidate_staging hstart
    rw [← hbegun s hs] at hc
    exact absurd (hc ▸ rfl) (hidle _ _ _ _ _ rfl c)
  | @called _ _ _ _ _ s c he hs hphase hcall =>
    obtain ⟨hrequested, hne, hselected, haffected, hforce, hpolicy⟩ :=
      beginRevalidate_call (hbegun s hs ▸ hphase)
    obtain ⟨T, hopen, hcall⟩ := Option.bind_eq_some_iff.mp hcall
    obtain ⟨U, hcalled, rfl⟩ := Option.map_eq_some_iff.mp hcall
    have hopen := tracedStep_step hopen
    have hcalled := tracedStep_step hcalled
    have hforced : (c.runtime s.memo).forceRefreshKeys = c.affected := by
      rw [RevalidateCall.runtime, hforce, if_pos rfl]
    refine ⟨c, ⟨(hwork.step hopen).step hcalled, ⟨hne, hselected⟩, ?_⟩, hrequested, hpolicy, hphase⟩
    show Turning b c _ s.phase
    rw [hphase]
    exact ⟨rfl, _, _, rfl,
      entered_call hwork.runtimes (fun k hk => hforced ▸ haffected k hk) hopen hcalled⟩

/-- This step begins a turn. -/
def fallsBack (b : Builder K V) (S : SnapshotSession K V) : SnapshotSessionLabel K V → Bool
  | .resolved leftovers =>
    match (S.step b (.resolved leftovers)).bind fun S' => S'.session.phase with
    | some (.retrying _ _) => true
    | _ => false
  | _ => false

/-- The turns that the bound leaves. -/
def turnsLeft (bound : ℕ) (S : SnapshotSession K V) : ℕ :=
  if S.awaiting.isSome then bound - S.attempted.length else 0

theorem Falling.turnsLeft_step {c : RevalidateCall K V} {l : SnapshotSessionLabel K V}
    (hS : S.Falling b c) (hl : S.Continues l) (h : S.step b l = some S') {bound : ℕ}
    (hbound : bound = c.requested.length * (b.sources.length + 1)) :
    S'.turnsLeft bound + (if fallsBack b S l then 1 else 0) ≤ S.turnsLeft bound := by
  cases l with
  | builder l =>
    obtain ⟨U, hU, rfl⟩ := Option.map_eq_some_iff.mp h
    exact le_rfl
  | session e =>
    show S'.turnsLeft bound + 0 ≤ _
    rcases (hS.session hl.busy h).2 with hsame | hleft
    · unfold turnsLeft awaiting attempted
      rw [hsame, Nat.add_zero]
    · have hnone : S'.awaiting = none := by
        unfold awaiting
        unfold Session.revalidation at hleft
        split
        · rename_i hp
          rw [hp] at hleft
          cases hleft
        · rename_i hp
          rw [hp] at hleft
          cases hleft
        · rfl
      unfold turnsLeft
      rw [hnone]
      exact Nat.zero_le _
  | resolved leftovers =>
    have hturned := hS.resolved h
    have hawaiting : S.awaiting.isSome := by
      obtain ⟨o, ho, _⟩ := Option.bind_eq_some_iff.mp h
      obtain ⟨call, hcall, _⟩ := Option.bind_eq_some_iff.mp ho
      rw [hcall]
      rfl
    have hfalls : fallsBack b S (.resolved leftovers) = match S'.session.phase with
        | some (.retrying _ _) => true
        | _ => false := by
      show (match (S.step b (.resolved leftovers)).bind fun S' => S'.session.phase with
        | some (.retrying _ _) => true
        | _ => false) = _
      rw [h, Option.bind_some]
    have hphase := hturned.falling.phase
    unfold turnsLeft
    rw [if_pos hawaiting]
    cases hp : S'.session.phase with
    | none =>
      rw [hfalls, if_neg (by simp [awaiting, hp]), hp]
      exact Nat.zero_le _
    | some phase =>
      rw [hp] at hphase
      cases phase with
      | retrying c' r =>
        obtain ⟨v, hgrown⟩ := hturned.grown c' r hp
        have hlen := hphase.2.1.length_le
        have hattempted : S'.attempted = S.attempted ++ [v] := by
          unfold attempted at hgrown ⊢
          rw [hp]
          exact hgrown
        rw [← hbound, hgrown, List.length_append, List.length_singleton] at hlen
        rw [hfalls, hattempted, List.length_append, List.length_singleton,
          if_pos (by simp [awaiting, hp]), hp]
        dsimp only
        rw [if_pos rfl]
        omega
      | staging c' => exact absurd hp (hturned.left c')
      | _ =>
        rw [hfalls, if_neg (by simp [awaiting, hp]), hp]
        exact Nat.zero_le _

/-- What the loop returns when its last turn leaves no violation: the values, with the memo of the
last runtime. -/
def fallenBack (S : SnapshotSession K V) : Option (RevalidateCall K V ×
    Dict K (SnapshotValue K V) × Dict K (SnapshotValue K V)) :=
  match S.session.phase with
  | some (.retrying c r) => S.outcome.bind fun o =>
    let values := r.values.update o.values
    if o.errors.entries = [] ∧ r.oldestKey ∈ o.values.keys ∧
        (c.consistencyPolicy.bind (findObservationSkewViolation values c.requested)).isNone then
      some (c, values, o.memo)
    else none
  | _ => none

theorem fallenBack_some {c : RevalidateCall K V} {values memo : Dict K (SnapshotValue K V)}
    (h : S.fallenBack = some (c, values, memo)) : ∃ r o,
      S.session.phase = some (.retrying c r) ∧ S.outcome = some o ∧ o.errors.entries = [] ∧
        r.oldestKey ∈ o.values.keys ∧ values = r.values.update o.values ∧ memo = o.memo ∧
        c.consistencyPolicy.bind (findObservationSkewViolation values c.requested) = none := by
  unfold fallenBack at h
  split at h
  · rename_i c' r hphase
    obtain ⟨o, ho, h⟩ := Option.bind_eq_some_iff.mp h
    dsimp only at h
    split at h
    · rename_i hdone
      cases h
      exact ⟨r, o, hphase, ho, hdone.1, hdone.2.1, rfl, rfl, Option.isNone_iff_eq_none.mp hdone.2.2⟩
    · cases h
  · cases h

/-- The session goes on to propose what the loop returns. -/
theorem fallenBack_proposed {c : RevalidateCall K V} {values memo : Dict K (SnapshotValue K V)}
    (h : S.fallenBack = some (c, values, memo)) (leftovers : List K) :
    S.step b (.resolved leftovers) =
      some { S with session := S.session.propose c values memo } := by
  obtain ⟨r, o, hphase, ho, herrors, holdest, rfl, rfl, hnone⟩ := fallenBack_some h
  have hkeys : o.keys = r.targets := by
    have ho' := ho
    unfold outcome awaiting at ho'
    rw [hphase, Option.bind_some] at ho'
    obtain ⟨at', _, ho'⟩ := Option.bind_eq_some_iff.mp ho'
    split at ho'
    · unfold ResolveOutcome.of at ho'
      split at ho'
      · cases ho'
        rfl
      · cases ho'
    · cases ho'
  have hstep : sessionStep S.session (.resolved o leftovers) =
      some (S.session.propose c (r.values.update o.values) o.memo) := by
    simp only [sessionStep, Session.onResolved, hphase]
    rw [if_pos hkeys, if_pos ⟨herrors, holdest⟩, Session.checkConsistency, hnone]
  rw [step, ho, Option.bind_some, hstep, Option.bind_some]
  split
  · rename_i hretry
    unfold Session.propose at hretry
    split at hretry
    · cases hretry
    · split at hretry <;> cases hretry
  · rfl

/-- No coroutine of runtime `n` consults a source for a key that has attempted it, or writes what it
has resolved into the cache. -/
structure Spares (attempted : List (K × String)) (n : ℕ) (s : State K V) : Prop where
  consults : ∀ j c source keys p, s.frame? j = some ⟨c, .work source keys p⟩ → c.runtime = n →
    ∀ k ∈ keys, (k, source.name) ∉ attempted
  writes : ∀ j f, s.frame? j = some f → f.scope.runtime = n → f.body.writing = []

theorem spares_of_detached {r : RetryState K V} {n : ℕ} {s : State K V}
    (hs : DetachedRun r.runtime.excludedSources n s) : Spares r.attempted n s := by
  refine ⟨fun j c source keys p hf hn k hk hattempted => ?_, fun j f hf hn => ?_⟩
  · exact hs.frames j _ hf hn k hk (attempted_excluded.mpr hattempted)
  · have hrestricted := hs.frames j f hf hn
    obtain ⟨c, body⟩ := f
    cases body with
    | resolveOwned keys lo p =>
      cases p with
      | writing sources fresh => cases hrestricted.1
      | staleWriting stale => cases hrestricted.1
      | _ => rfl
    | _ => rfl

/-- Attempts are never taken back. -/
theorem attempted_kept {c : RevalidateCall K V} {r : RetryState K V}
    {ms : List (SnapshotSessionLabel K V)} (hS : S.Falling b c)
    (hphase : S.session.phase = some (.retrying c r))
    (hrun : RunOf (step b) Continues S ms S') {c' : RevalidateCall K V} {r' : RetryState K V}
    (hphase' : S'.session.phase = some (.retrying c' r')) : ∀ x ∈ r.attempted, x ∈ r'.attempted := by
  have hkept : S'.Falling b c ∧ (∀ c'', S'.session.phase ≠ some (.staging c'')) ∧
      ∀ c'' r'', S'.session.phase = some (.retrying c'' r'') →
        ∀ x ∈ r.attempted, x ∈ r''.attempted := by
    refine hrun.invariant (fun S => S.Falling b c ∧
      (∀ c'', S.session.phase ≠ some (.staging c'')) ∧
      ∀ c'' r'', S.session.phase = some (.retrying c'' r'') →
        ∀ x ∈ r.attempted, x ∈ r''.attempted) ?_ ⟨hS, by rw [hphase]; nofun, ?_⟩
    · rintro S l T hok ⟨hfalling, hstage, hold⟩ hstep
      refine ⟨hfalling.step hok hstep, ?_⟩
      cases l with
      | builder l =>
        obtain ⟨U, _, rfl⟩ := Option.map_eq_some_iff.mp hstep
        exact ⟨hstage, hold⟩
      | session e =>
        rcases (hfalling.session hok.busy hstep).2 with hsame | hleft
        · rw [hsame]
          exact ⟨hstage, hold⟩
        · unfold Session.revalidation at hleft
          refine ⟨fun c'' hp => ?_, fun c'' r'' hp => ?_⟩
          · rw [hp] at hleft
            cases hleft
          · rw [hp] at hleft
            cases hleft
      | resolved leftovers =>
        have hturned := hfalling.resolved hstep
        refine ⟨hturned.left, fun c'' r'' hp x hx => ?_⟩
        obtain ⟨v, hgrown⟩ := hturned.grown c'' r'' hp
        rw [hgrown]
        refine List.mem_append_left _ ?_
        obtain ⟨o, ho, _⟩ := Option.bind_eq_some_iff.mp hstep
        obtain ⟨call, hcall, _⟩ := Option.bind_eq_some_iff.mp ho
        unfold awaiting at hcall
        unfold attempted
        split at hcall
        · exact absurd ‹_› (hstage _)
        · rename_i c₀ r₀ hp₀
          rw [hp₀]
          exact hold c₀ r₀ hp₀ x hx
        · cases hcall
    · intro c'' r'' hp x hx
      rw [hphase] at hp
      cases hp
      exact hx
  exact hkept.2.2 c' r' hphase'

/-- The fallback loop of a forced revalidation takes at most one turn for every selected key and
source, and one more for every key. When it succeeds, the selected values lie pairwise within the
allowed skew and the memo has these values for all targets. A pair of a key and a source that was
attempted stays so, and from then on the calls of the loop never consult it, nor do they write
anything into the shared cache. -/
theorem skew_fallback_sound (b : Builder K V) {hasDeadline : Bool} {now : ℚ}
    {cache : AsyncMemoryCache K V} {revisions : List (Dict K ℕ)} {deadline : Option ℚ}
    {ls₀ ls : List (SnapshotSessionLabel K V)} {S₀ S₁ S₂ : SnapshotSession K V} {keys : List K}
    {strict : Bool} {p : Option SnapshotConsistencyPolicy}
    {q : Option (Dict K (SnapshotValue K V) → Bool)}
    (hreach : Run (step b) (.new hasDeadline (.initial now cache revisions) deadline) ls₀ S₀)
    (hbegin : S₀.step b (.session (.revalidate keys strict true p q)) = some S₁)
    (hrun : RunOf (step b) Continues S₁ ls S₂) :
    countAlong (step b) (fallsBack b) S₁ ls ≤
      (Dict.fromKeys keys).length * (b.sources.length + 1) ∧
    (∀ c values memo, S₂.fallenBack = some (c, values, memo) →
      (∀ policy, p = some policy → ∀ k ∈ keys, ∀ k' ∈ keys, ∃ v v', values.get? k = some v ∧
        values.get? k' = some v' ∧
          |v.observedAt - v'.observedAt| ≤ policy.maxObservationSkewSeconds) ∧
      ∀ k ∈ c.targets, ∃ v, values.get? k = some v ∧ memo.get? k = some v) ∧
    ∀ c r n i, S₂.session.phase = some (.retrying c r) → S₂.staged = some (n, i) →
      (∀ ms S₃ c' r', RunOf (step b) Continues S₂ ms S₃ →
        S₃.session.phase = some (.retrying c' r') → ∀ x ∈ r.attempted, x ∈ r'.attempted) ∧
      ∀ ms S₃, Run (step b) S₂ ms S₃ → Spares r.attempted n S₃.builder.toState := by
  by_cases hbusy : S₁.session.phase.isSome
  · obtain ⟨ms, hms⟩ := run_builder hreach
    have hwork : AtWork b S₀.builder.toState := hms.untraced.invariant (AtWork b)
      (fun _ _ _ _ hs h => hs.step h) (atWork_initial b now cache revisions)
    obtain ⟨c, hfalling, hrequested, hpolicy, hphase₁⟩ := begin_falling hwork hbegin hbusy
    have hend : S₂.Falling b c :=
      hrun.invariant (Falling b c) (fun _ _ _ hl hS h => hS.step hl h) hfalling
    refine ⟨?_, fun c' values memo hback => ?_, fun c' r n i hphase hstaged => ?_⟩
    · have hcount := hrun.countAlong_le (Falling b c)
        (turnsLeft ((Dict.fromKeys keys).length * (b.sources.length + 1))) (fun _ => 0)
        (fallsBack b) (fun _ _ _ hl hS h => hS.step hl h)
        (fun _ _ _ hl hS h => hS.turnsLeft_step hl h (by rw [hrequested])) hfalling
      refine hcount.trans ?_
      unfold turnsLeft
      split <;> simp
    · obtain ⟨r, o, hphase, ho, herrors, holdest, rfl, rfl, hnone⟩ := fallenBack_some hback
      have hturning := hend.phase
      rw [hphase] at hturning
      obtain ⟨rfl, hattempts, _, n, i, hstaged, hturn⟩ := hturning
      have hhead := head_turned hphase hstaged hattempts hturn ho herrors holdest
      refine ⟨?_, hhead.matched⟩
      rintro policy rfl k hk k' hk'
      rw [hpolicy, Option.bind_some] at hnone
      have hmem : ∀ {j}, j ∈ keys → j ∈ c'.requested := fun hj =>
        hrequested ▸ Dict.mem_fromKeys.mpr hj
      obtain ⟨v, hv, _⟩ := hhead.matched k (hend.selected.2 k (hmem hk))
      obtain ⟨v', hv', _⟩ := hhead.matched k' (hend.selected.2 k' (hmem hk'))
      refine ⟨v, v', hv, hv', abs_sub_le_iff.mpr ⟨?_, ?_⟩⟩
      · exact skew_le_of_no_violation hnone (hmem hk) (hmem hk') hv hv'
      · exact skew_le_of_no_violation hnone (hmem hk') (hmem hk) hv' hv
    · have hturning := hend.phase
      rw [hphase] at hturning
      obtain ⟨rfl, _, _, n', i', hstaged', hturn⟩ := hturning
      rw [hstaged, Option.some.injEq, Prod.mk.injEq] at hstaged'
      obtain ⟨rfl, rfl⟩ := hstaged'
      refine ⟨fun ms S₃ c'' r' hlater hphase' => attempted_kept hend hphase hlater hphase', ?_⟩
      intro ms S₃ hlater
      obtain ⟨ls', hls'⟩ := run_builder hlater
      exact spares_of_detached (hls'.untraced.invariant (DetachedRun r.runtime.excludedSources n)
        (fun _ _ _ _ hs h => hs.step h) hturn.detached)
  · -- The call was refused: there is no run.
    have hidle : S₁.session.phase = none := by simpa using hbusy
    cases hrun with
    | nil =>
      refine ⟨Nat.zero_le _, fun c values memo hback => ?_, fun c r n i hphase => ?_⟩
      · obtain ⟨r, _, hphase, _⟩ := fallenBack_some hback
        rw [hidle] at hphase
        cases hphase
      · rw [hidle] at hphase
        cases hphase
    | cons hok => exact absurd hok.busy hbusy

end SnapshotSession

end

/-! ## A fallback to the second source -/

namespace SnapshotSession

def resolvedBefore : Dict ℕ (SnapshotValue ℕ ℕ) :=
  (Dict.empty.set 0 ⟨0, 5, "local", 0, 0, 0, false, false, 0, 0, .empty⟩).set 1
    ⟨1, 5, "local", 0, 0, 0, false, false, 0, 0, .empty⟩

def outcomeBefore : ResolveOutcome ℕ ℕ where
  keys := [0, 1]
  values := resolvedBefore
  errors := .empty
  memo := resolvedBefore
  covers := fun k => by simp [resolvedBefore, Dict.mem_keys_set, or_comm]
  disjoint := fun k _ => by simp

def emptySession : SnapshotSession ℕ ℕ :=
  .new false (.initial 0 (AsyncMemoryCache.new none AsyncMemoryCache.unlimited) [.empty]) none

/-- The session has keys 0 and 1. -/
def resolvesBefore : List (SnapshotSessionLabel ℕ ℕ) :=
  [.session (.resolve [0, 1] true false), .session (.resolved outcomeBefore []),
    .session .delivered]

theorem second_nonneg : (0 : ℚ) ≤ 1 := by norm_num

def withinASecond : SnapshotConsistencyPolicy := ⟨1, false, second_nonneg⟩

def answersAt (i key : ℕ) (observedAt : ℚ) : Label ℕ ℕ :=
  .run i (.answer (Dict.empty.set key ⟨7, some observedAt⟩))

/-- The first source observed key 0 five seconds before key 1. -/
def observesApart : List (Label ℕ ℕ) :=
  turns [(0, 2), (1, 3)] ++ [answersAt 2 0 (-5), answersAt 3 1 0] ++ turns [(1, 9), (0, 4)]

/-- The second source has a newer value of key 0. -/
def observesAgain : List (Label ℕ ℕ) :=
  turns [(4, 2), (5, 3)] ++ [answersAt 6 0 0] ++ turns [(5, 5), (4, 3)]

def fallsBackOnce : List (SnapshotSessionLabel ℕ ℕ) :=
  observesApart.map .builder ++ [.resolved []] ++ observesAgain.map .builder

/-- A check for `Continues`. -/
def continuesCheck (S : SnapshotSession ℕ ℕ) (l : SnapshotSessionLabel ℕ ℕ) : Bool :=
  S.session.phase.isSome && match l with
    | .builder (.run j _) => S.staged.all fun call => !S.builder.returning call.2 || j == call.2
    | .builder (.call r _ _) => S.staged.all fun call => r != call.1
    | _ => true

theorem continues_of_check {S : SnapshotSession ℕ ℕ} {l : SnapshotSessionLabel ℕ ℕ}
    (h : continuesCheck S l = true) : S.Continues l := by
  unfold continuesCheck at h
  rw [Bool.and_eq_true] at h
  refine ⟨h.1, ?_⟩
  rintro m n i rfl _ hstaged
  have hcheck := h.2
  refine ⟨?_, ?_⟩
  · rintro hreturns j e rfl
    simpa [hstaged, hreturns] using hcheck
  · rintro deadline keys rfl
    simp [hstaged] at hcheck

/-- Key 0 falls back from the first source to the second, in one turn. -/
theorem skew_fallback_second : ∃ (S₀ S₁ S₂ : SnapshotSession ℕ ℕ) (c : RevalidateCall ℕ ℕ)
    (values memo : Dict ℕ (SnapshotValue ℕ ℕ)),
    Run (step pairedSources) emptySession resolvesBefore S₀ ∧
      S₀.step pairedSources (.session (.revalidate [0, 1] true true (some withinASecond) none)) =
        some S₁ ∧
      RunOf (step pairedSources) Continues S₁ fallsBackOnce S₂ ∧
      countAlong (step pairedSources) (fallsBack pairedSources) S₁ fallsBackOnce = 1 ∧
      S₂.fallenBack = some (c, values, memo) ∧
      values.entries.map (fun e => (e.1, e.2.source, e.2.observedAt)) =
        [(0, "second", 0), (1, "first", 0)] ∧
      (∃ v v', values.get? 0 = some v ∧ values.get? 1 = some v' ∧
        |v.observedAt - v'.observedAt| ≤ 1) ∧
      ∃ r n i, S₂.session.phase = some (.retrying c r) ∧ S₂.staged = some (n, i) ∧
        r.attempted = [(0, "first")] ∧ Spares r.attempted n S₂.builder.toState := by
  have hrun : (exec (step pairedSources) emptySession resolvesBefore).bind (fun S₀ =>
      (S₀.step pairedSources (.session (.revalidate [0, 1] true true (some withinASecond)
        none))).bind fun S₁ =>
          (execOf (step pairedSources) continuesCheck S₁ fallsBackOnce).bind fun S₂ =>
            S₂.fallenBack.map fun back =>
              decide (countAlong (step pairedSources) (fallsBack pairedSources) S₁
                fallsBackOnce = 1) &&
              decide (back.2.1.entries.map (fun e => (e.1, e.2.source, e.2.observedAt)) =
                [(0, "second", 0), (1, "first", 0)]) &&
              S₂.staged.isSome && decide (S₂.attempted = [(0, "first")])) = some true := by
    decide +kernel
  obtain ⟨S₀, h₀, hrun⟩ := Option.bind_eq_some_iff.mp hrun
  obtain ⟨S₁, h₁, hrun⟩ := Option.bind_eq_some_iff.mp hrun
  obtain ⟨S₂, h₂, hrun⟩ := Option.bind_eq_some_iff.mp hrun
  obtain ⟨⟨c, values, memo⟩, hback, hfacts⟩ := Option.map_eq_some_iff.mp hrun
  simp only [Bool.and_eq_true, decide_eq_true_eq] at hfacts
  obtain ⟨⟨⟨hcount, hvalues⟩, hstaged⟩, hattempted⟩ := hfacts
  obtain ⟨⟨n, i⟩, hstaged⟩ := Option.isSome_iff_exists.mp hstaged
  obtain ⟨r, _, hphase, _⟩ := fallenBack_some hback
  unfold attempted at hattempted
  rw [hphase] at hattempted
  have hcontinues : RunOf (step pairedSources) Continues S₁ fallsBackOnce S₂ :=
    (execOf_run h₂).mono fun _ _ hl => continues_of_check hl
  obtain ⟨_, hsound, hlater⟩ := skew_fallback_sound pairedSources (exec_run h₀) h₁ hcontinues
  exact ⟨S₀, S₁, S₂, c, values, memo, exec_run h₀, h₁, hcontinues, hcount, hback, hvalues,
    (hsound c values memo hback).1 withinASecond rfl 0 (by simp) 1 (by simp), r, n, i, hphase,
    hstaged, hattempted, (hlater c r n i hphase hstaged).2 [] S₂ (.nil _)⟩

end SnapshotSession
end Coalestra
