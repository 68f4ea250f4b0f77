import Coalestra.Orchestration.Session

/-! # Revalidation is one transaction

A revalidation that raises, is cancelled or reports errors leaves the visible resources and the
stored errors of its session as they were, and the memo too, up to what producers left behind by an
earlier call write into it. A revalidation that returns without errors replaces exactly its visible
targets, by the values of its own staged resolution. -/

namespace Coalestra
set_option autoImplicit false
set_option maxHeartbeats 250000

section
variable {K V : Type} [DecidableEq K]

/-! ## What a call leaves behind -/

/-- What producers of abandoned work write into a memo during `es`. -/
def withStrays (es : List (SessionEvent K V)) (memo : Dict K (SnapshotValue K V)) :
    Dict K (SnapshotValue K V) :=
  es.foldl (fun memo e => match e with | .stray key value => memo.set key value | _ => memo) memo

def stage (acc : Option (Dict K (SnapshotValue K V) × Dict K (SnapshotValue K V))) :
    SessionEvent K V → Option (Dict K (SnapshotValue K V) × Dict K (SnapshotValue K V))
  | .resolved o _ => match acc with
    | none => some (o.values, o.memo)
    | some r => some (r.1.update o.values, o.memo)
  | _ => acc

/-- The values and the memo of the resolution staged during `es`: its first outcome, updated by
those of the consistency fallback. -/
def staged (es : List (SessionEvent K V)) :
    Option (Dict K (SnapshotValue K V) × Dict K (SnapshotValue K V)) := es.foldl stage none

/-- The call raised, was cancelled, or returned transient errors. -/
def CallOutcome.Failed : CallOutcome K V → Prop
  | .raised _ => True
  | .cancelled => True
  | .returned _ _ transient => transient.entries ≠ []

/-- The keys a revalidation of `requested` replaces when they are visible. -/
def targetsOf (s : Session K V) (requested : List K) (k : K) : Prop :=
  k ∈ requested ∨ k ∈ s.resources.keys ∧ k ∈ affectedKeysFromMemo requested s.memo

def SessionEvent.isStray : SessionEvent K V → Bool
  | .stray _ _ => true
  | _ => false

def SessionEvent.isResolved : SessionEvent K V → Bool
  | .resolved _ _ => true
  | _ => false

/-- The state of `s` is untouched, up to stray memo writes. -/
structure Kept (s : Session K V) (es : List (SessionEvent K V)) (t : Session K V) : Prop where
  resources : t.resources = s.resources
  errors : t.errors = s.errors
  memo : t.memo = withStrays es s.memo

/-- The staged resolution has replaced the visible targets, and nothing else. -/
structure Replaced (s : Session K V) (requested : List K) (es : List (SessionEvent K V))
    (t : Session K V) (values memo : Dict K (SnapshotValue K V)) : Prop where
  staged : staged es = some (values, memo)
  target : ∀ k, targetsOf s requested k → k ∈ s.resources.keys →
    ∃ v, values.get? k = some v ∧ t.resources.get? k = some v
  other : ∀ k, ¬ (targetsOf s requested k ∧ k ∈ s.resources.keys) →
    t.resources.get? k = s.resources.get? k
  targetError : ∀ k, targetsOf s requested k → t.errors.get? k = none
  otherError : ∀ k, ¬ targetsOf s requested k → t.errors.get? k = s.errors.get? k
  memo : t.memo = memo

/-- What a finished revalidation means for its session. -/
def AllOrNothing (s : Session K V) (requested : List K) (es : List (SessionEvent K V))
    (t : Session K V) : Prop :=
  (∃ outcome, t.last = some outcome ∧ outcome.Failed ∧ Kept s es t) ∨
  ∃ values memo, t.last = some (.returned t.resources t.errors .empty) ∧
    Replaced s requested es t values memo

/-! ## The call in progress -/

/-- The call that `beginRevalidate` starts. -/
def IsTargetsOf (s : Session K V) (requested : List K) (c : RevalidateCall K V) : Prop :=
  c.requested = requested ∧ ∀ k, k ∈ c.targets ↔ targetsOf s requested k

/-- What holds of the session and of the phase of the revalidation that began in `s`. -/
def Underway (s : Session K V) (requested : List K) (es : List (SessionEvent K V))
    (t : Session K V) : CallPhase K V → Prop
  | .staging c => Kept s es t ∧ IsTargetsOf s requested c ∧ staged es = none
  | .reporting c errors => Kept s es t ∧ IsTargetsOf s requested c ∧ errors.entries ≠ []
  | .retrying c r => Kept s es t ∧ IsTargetsOf s requested c ∧ staged es = some (r.values, r.memo)
  | .rejecting _ c => Kept s es t ∧ IsTargetsOf s requested c
  | .committing c resources errors memo => Kept s es t ∧ IsTargetsOf s requested c ∧
      (∃ values, staged es = some (values, memo) ∧
        replaceTargets values c.targets s.resources = some resources) ∧
      errors = s.errors.filter fun k => decide (k ∉ c.targets)
  | _ => False

def Revalidating (s : Session K V) (requested : List K) (es : List (SessionEvent K V))
    (t : Session K V) : Prop :=
  match t.phase with
  | none => AllOrNothing s requested es t
  | some phase => Underway s requested es t phase

theorem withStrays_snoc (es : List (SessionEvent K V)) (e : SessionEvent K V)
    (memo : Dict K (SnapshotValue K V)) :
    withStrays (es ++ [e]) memo = withStrays [e] (withStrays es memo) := by
  simp [withStrays, List.foldl_append]

theorem staged_snoc (es : List (SessionEvent K V)) (e : SessionEvent K V) :
    staged (es ++ [e]) = stage (staged es) e := by
  rw [staged, List.foldl_append]
  rfl

theorem staged_snoc_other {es : List (SessionEvent K V)} {e : SessionEvent K V}
    (h : e.isResolved = false) : staged (es ++ [e]) = staged es := by
  rw [staged_snoc]
  cases e with
  | resolved o leftovers => cases h
  | _ => rfl

/-- An event other than a stray write leaves a kept state kept. -/
theorem Kept.snoc {s t u : Session K V} {es : List (SessionEvent K V)} {e : SessionEvent K V}
    (h : Kept s es t) (he : e.isStray = false) (hr : u.resources = t.resources)
    (hx : u.errors = t.errors) (hm : u.memo = t.memo) : Kept s (es ++ [e]) u := by
  refine ⟨hr.trans h.resources, hx.trans h.errors, ?_⟩
  rw [hm, h.memo, withStrays_snoc]
  cases e with
  | stray k v => cases he
  | _ => rfl

/-- An await that fails ends the call and keeps the state. -/
theorem interrupted_kept {s t u : Session K V} {es : List (SessionEvent K V)}
    {e : SessionEvent K V} {enforce : Bool} {interrupt : Interrupt} {requested : List K}
    {error : SessionError K} (h : Kept s es t) (he : e.isStray = false)
    (hu : t.interrupted enforce interrupt (t.finish (.raised error)) = some u) :
    Revalidating s requested (es ++ [e]) u := by
  have hfinish : ∀ outcome : CallOutcome K V, outcome.Failed →
      Revalidating s requested (es ++ [e]) (t.finish outcome) := fun outcome hfailed =>
    .inl ⟨outcome, rfl, hfailed, h.snoc he rfl rfl rfl⟩
  cases interrupt with
  | deadline =>
    simp only [Session.interrupted] at hu
    split at hu
    · rw [Option.some.injEq] at hu
      rw [← hu]
      exact hfinish _ trivial
    · cases hu
  | cancelled =>
    simp only [Session.interrupted, Option.some.injEq] at hu
    rw [← hu]
    exact hfinish _ trivial
  | error =>
    simp only [Session.interrupted, Option.some.injEq] at hu
    rw [← hu]
    exact hfinish _ trivial

theorem beginRevalidate_underway (s : Session K V) (keys : List K) (strict forceRefresh : Bool)
    (p : Option SnapshotConsistencyPolicy)
    (q : Option (Dict K (SnapshotValue K V) → Bool)) :
    Revalidating s (Dict.fromKeys keys) [] (s.beginRevalidate keys strict forceRefresh p q) := by
  have hkept : ∀ t : Session K V, t.resources = s.resources → t.errors = s.errors →
      t.memo = s.memo → Kept s [] t := fun t hr hx hm => ⟨hr, hx, hm⟩
  simp only [Session.beginRevalidate]
  split
  · exact .inl ⟨_, rfl, trivial, hkept _ rfl rfl rfl⟩
  · split
    · exact .inl ⟨_, rfl, trivial, hkept _ rfl rfl rfl⟩
    · split
      · exact .inl ⟨_, rfl, trivial, hkept _ rfl rfl rfl⟩
      · refine ⟨hkept _ rfl rfl rfl, ⟨rfl, fun k => ?_⟩, rfl⟩
        simp only [Dict.mem_fromKeys, List.mem_append, List.mem_filter, decide_eq_true_eq,
          targetsOf]
        constructor
        · rintro (h | ⟨hvisible, haffected, _⟩)
          · exact .inl h
          · exact .inr ⟨hvisible, haffected⟩
        · rintro (h | ⟨hvisible, haffected⟩)
          · exact .inl h
          · by_cases hk : k ∈ keys
            · exact .inl hk
            · exact .inr ⟨hvisible, haffected, hk⟩

theorem Kept.await {s t : Session K V} {es : List (SessionEvent K V)} (h : Kept s es t)
    (phase : CallPhase K V) : Kept s es (t.await phase) := ⟨h.resources, h.errors, h.memo⟩

theorem propose_underway {s t : Session K V} {es : List (SessionEvent K V)} {requested : List K}
    {c : RevalidateCall K V} {values memo : Dict K (SnapshotValue K V)} (hkept : Kept s es t)
    (hc : IsTargetsOf s requested c) (hstaged : staged es = some (values, memo)) :
    Revalidating s requested es (t.propose c values memo) := by
  unfold Session.propose
  cases hreplace : replaceTargets values c.targets t.resources with
  | none => exact .inl ⟨_, rfl, trivial, hkept.resources, hkept.errors, hkept.memo⟩
  | some resources =>
    simp only
    split
    · exact ⟨hkept.await _, hc⟩
    · refine ⟨hkept.await _, hc, ⟨values, hstaged, ?_⟩, by rw [hkept.errors]⟩
      rw [← hkept.resources]
      exact hreplace

theorem checkConsistency_underway {s t : Session K V} {es : List (SessionEvent K V)}
    {requested : List K} {c : RevalidateCall K V} {values memo : Dict K (SnapshotValue K V)}
    (attempted : List (K × String)) (hkept : Kept s es t) (hc : IsTargetsOf s requested c)
    (hstaged : staged es = some (values, memo)) :
    Revalidating s requested es (t.checkConsistency c values memo attempted) := by
  unfold Session.checkConsistency
  split
  · exact propose_underway hkept hc hstaged
  · split
    · unfold Session.retry
      split
      · exact ⟨hkept.await _, hc⟩
      · split
        · exact ⟨hkept.await _, hc⟩
        · exact ⟨hkept.await _, hc, hstaged⟩
    · exact ⟨hkept.await _, hc⟩

theorem resolved_underway {s t u : Session K V} {es : List (SessionEvent K V)}
    {requested : List K} {o : ResolveOutcome K V} {leftovers : List K}
    (h : Revalidating s requested es t) (hu : t.onResolved o leftovers = some u) :
    Revalidating s requested (es ++ [.resolved o leftovers]) u := by
  unfold Session.onResolved at hu
  unfold Revalidating at h
  cases hphase : t.phase with
  | none => simp [hphase] at hu
  | some phase =>
    rw [hphase] at h hu
    cases phase with
    | staging c =>
      obtain ⟨hkept, hc, hstaged⟩ := h
      have hkept' : Kept s (es ++ [.resolved o leftovers]) t := hkept.snoc rfl rfl rfl rfl
      simp only at hu
      split at hu
      · split at hu
        · rw [Option.some.injEq] at hu
          rw [← hu]
          refine checkConsistency_underway [] hkept' hc ?_
          rw [staged_snoc, hstaged]
          rfl
        · rename_i herrors
          rw [Option.some.injEq] at hu
          rw [← hu]
          exact ⟨hkept'.await _, hc, herrors⟩
      · cases hu
    | retrying c r =>
      obtain ⟨hkept, hc, hstaged⟩ := h
      have hkept' : Kept s (es ++ [.resolved o leftovers]) t := hkept.snoc rfl rfl rfl rfl
      simp only at hu
      split at hu
      · split at hu
        · rw [Option.some.injEq] at hu
          rw [← hu]
          refine checkConsistency_underway r.attempted hkept' hc ?_
          rw [staged_snoc, hstaged]
          rfl
        · rw [Option.some.injEq] at hu
          rw [← hu]
          exact ⟨hkept'.await _, hc⟩
      · cases hu
    | resolving c => exact h.elim
    | _ => simp at hu

theorem unresolved_underway {s t u : Session K V} {es : List (SessionEvent K V)}
    {requested : List K} {interrupt : Interrupt} {memo : Dict K (SnapshotValue K V)}
    {leftovers : List K} (h : Revalidating s requested es t)
    (hu : t.onUnresolved interrupt memo leftovers = some u) :
    Revalidating s requested (es ++ [.unresolved interrupt memo leftovers]) u := by
  unfold Session.onUnresolved at hu
  unfold Revalidating at h
  cases hphase : t.phase with
  | none => simp [hphase] at hu
  | some phase =>
    rw [hphase] at h hu
    cases phase with
    | staging c => exact interrupted_kept h.1 rfl hu
    | retrying c r => exact interrupted_kept h.1 rfl hu
    | resolving c => exact h.elim
    | _ => simp at hu

theorem commit_replaced {s t : Session K V} {es : List (SessionEvent K V)} {requested : List K}
    {c : RevalidateCall K V} {values memo resources : Dict K (SnapshotValue K V)}
    {errors : Dict K (Error K)} (hc : IsTargetsOf s requested c)
    (hstaged : staged es = some (values, memo))
    (hreplace : replaceTargets values c.targets s.resources = some resources)
    (herrors : errors = s.errors.filter fun k => decide (k ∉ c.targets)) :
    Replaced s requested es (t.commit resources errors memo) values memo := by
  obtain ⟨hget, hsome⟩ := replaceTargets_spec hreplace
  refine ⟨hstaged, ?_, ?_, ?_, ?_, rfl⟩
  · intro k hk hvisible
    obtain ⟨v, hv⟩ := hsome k ((hc.2 k).mpr hk) hvisible
    refine ⟨v, hv, ?_⟩
    change resources.get? k = some v
    rw [hget k, if_pos ⟨(hc.2 k).mpr hk, hvisible⟩, hv]
  · intro k hk
    change resources.get? k = s.resources.get? k
    rw [hget k, if_neg fun h => hk ⟨(hc.2 k).mp h.1, h.2⟩]
  · intro k hk
    change errors.get? k = none
    simp [herrors, Dict.get?_filter, (hc.2 k).mpr hk]
  · intro k hk
    change errors.get? k = s.errors.get? k
    have hk' : k ∉ c.targets := fun h => hk ((hc.2 k).mp h)
    simp [herrors, Dict.get?_filter, hk']

theorem delivered_underway {s t u : Session K V} {es : List (SessionEvent K V)}
    {requested : List K} (h : Revalidating s requested es t) (hu : t.onDelivered = some u) :
    Revalidating s requested (es ++ [.delivered]) u := by
  unfold Session.onDelivered at hu
  unfold Revalidating at h
  cases hphase : t.phase with
  | none => simp [hphase] at hu
  | some phase =>
    rw [hphase] at h hu
    cases phase with
    | reporting c errors =>
      obtain ⟨hkept, hc, herrors⟩ := h
      rw [Option.some.injEq] at hu
      rw [← hu]
      refine .inl ⟨_, rfl, ?_, hkept.snoc rfl rfl rfl rfl⟩
      split
      · trivial
      · exact herrors
    | rejecting error c =>
      obtain ⟨hkept, hc⟩ := h
      rw [Option.some.injEq] at hu
      rw [← hu]
      exact .inl ⟨_, rfl, trivial, hkept.snoc rfl rfl rfl rfl⟩
    | committing c resources errors memo =>
      obtain ⟨_, hc, ⟨values, hstaged, hreplace⟩, herrors⟩ := h
      rw [Option.some.injEq] at hu
      rw [← hu]
      refine .inr ⟨values, memo, rfl, commit_replaced hc ?_ hreplace herrors⟩
      rw [staged_snoc_other rfl, hstaged]
    | delivering c => exact h.elim
    | lateDelivering c => exact h.elim
    | viewing => exact h.elim
    | _ => simp at hu

theorem undelivered_underway {s t u : Session K V} {es : List (SessionEvent K V)}
    {requested : List K} {interrupt : Interrupt} (h : Revalidating s requested es t)
    (hu : t.onUndelivered interrupt = some u) :
    Revalidating s requested (es ++ [.undelivered interrupt]) u := by
  unfold Session.onUndelivered at hu
  unfold Revalidating at h
  cases hphase : t.phase with
  | none => simp [hphase] at hu
  | some phase =>
    rw [hphase] at h hu
    cases phase with
    | reporting c errors => exact interrupted_kept h.1 rfl hu
    | rejecting error c => exact interrupted_kept h.1 rfl hu
    | committing c _ _ _ => exact interrupted_kept h.1 rfl hu
    | delivering c => exact h.elim
    | lateDelivering c => exact h.elim
    | viewing => exact h.elim
    | _ => simp at hu

/-- An event that keeps the state and stages nothing leaves the phase as it was. -/
theorem Underway.snoc {s t u : Session K V} {es : List (SessionEvent K V)} {requested : List K}
    {phase : CallPhase K V} {e : SessionEvent K V} (h : Underway s requested es t phase)
    (he : e.isResolved = false) (hkept : Kept s es t → Kept s (es ++ [e]) u) :
    Underway s requested (es ++ [e]) u phase := by
  have hstaged : staged (es ++ [e]) = staged es := staged_snoc_other he
  cases phase with
  | staging c => exact ⟨hkept h.1, h.2.1, hstaged.trans h.2.2⟩
  | reporting c errors => exact ⟨hkept h.1, h.2.1, h.2.2⟩
  | retrying c r => exact ⟨hkept h.1, h.2.1, hstaged.trans h.2.2⟩
  | rejecting error c => exact ⟨hkept h.1, h.2⟩
  | committing c resources errors memo =>
    obtain ⟨hk, hc, ⟨values, hst, hreplace⟩, herrors⟩ := h
    exact ⟨hkept hk, hc, ⟨values, hstaged.trans hst, hreplace⟩, herrors⟩
  | _ => exact h.elim

theorem revalidating_snoc {s t u : Session K V} {es : List (SessionEvent K V)}
    {requested : List K} {e : SessionEvent K V} (h : Revalidating s requested es t)
    (hbusy : t.phase.isSome) (hphase : u.phase = t.phase) (he : e.isResolved = false)
    (hkept : Kept s es t → Kept s (es ++ [e]) u) : Revalidating s requested (es ++ [e]) u := by
  obtain ⟨phase, hsome⟩ := Option.isSome_iff_exists.mp hbusy
  unfold Revalidating at h ⊢
  rw [hsome] at h
  rw [hphase, hsome]
  exact h.snoc he hkept

/-- Every step of a call in progress keeps what holds of its revalidation. -/
theorem revalidating_step {s t u : Session K V} {es : List (SessionEvent K V)}
    {requested : List K} {e : SessionEvent K V} (h : Revalidating s requested es t)
    (hbusy : t.phase.isSome) (hu : sessionStep t e = some u) :
    Revalidating s requested (es ++ [e]) u := by
  have hlocked : ∀ t' : Session K V, t.locked t' ≠ some u := by
    intro t' ht'
    obtain ⟨phase, hphase⟩ := Option.isSome_iff_exists.mp hbusy
    simp [Session.locked, hphase] at ht'
  cases e with
  | resolve keys strict retryErrors => exact absurd hu (hlocked _)
  | resolveRequest request retryErrors => exact absurd hu (hlocked _)
  | revalidate keys strict forceRefresh p q => exact absurd hu (hlocked _)
  | snapshotAsync => exact absurd hu (hlocked _)
  | close => exact absurd hu (hlocked _)
  | snapshot =>
    rw [sessionStep, Option.some.injEq] at hu
    subst hu
    exact revalidating_snoc h hbusy rfl rfl fun h => h.snoc rfl rfl rfl rfl
  | resolved o leftovers => exact resolved_underway h hu
  | unresolved interrupt memo leftovers => exact unresolved_underway h hu
  | delivered => exact delivered_underway h hu
  | undelivered interrupt => exact undelivered_underway h hu
  | stray key value =>
    simp only [sessionStep] at hu
    split at hu
    · rw [Option.some.injEq] at hu
      subst hu
      refine revalidating_snoc h hbusy rfl rfl fun h => ⟨h.resources, h.errors, ?_⟩
      rw [withStrays_snoc, ← h.memo]
      rfl
    · cases hu

/-! ## Whole calls -/

/-- From the step that begins a revalidation to the one that ends it. -/
theorem revalidate_all_or_nothing {s t u : Session K V} {keys : List K} {strict forceRefresh : Bool}
    {p : Option SnapshotConsistencyPolicy} {q : Option (Dict K (SnapshotValue K V) → Bool)}
    {es : List (SessionEvent K V)}
    (hbegin : sessionStep s (.revalidate keys strict forceRefresh p q) = some t)
    (hrun : RunOf sessionStep (fun w _ => w.phase.isSome) t es u) (hdone : u.phase = none) :
    AllOrNothing s (Dict.fromKeys keys) es u := by
  have hstart : Revalidating s (Dict.fromKeys keys) [] t := by
    simp only [sessionStep, Session.locked] at hbegin
    split at hbegin
    · rw [Option.some.injEq] at hbegin
      rw [← hbegin]
      exact beginRevalidate_underway s keys strict forceRefresh p q
    · cases hbegin
  have hend : Revalidating s (Dict.fromKeys keys) es u :=
    hrun.history hstart fun ms w e w' _ hbusy hstep h => revalidating_step h hbusy hstep
  unfold Revalidating at hend
  rw [hdone] at hend
  exact hend

end

/-! ## A producer left behind -/

/-- One value of a two-key example. -/
def exampleValue (key version : ℕ) : SnapshotValue ℕ ℕ :=
  ⟨key, 0, "rest", 0, 0, 0, false, false, 0, version, .empty⟩

def exampleOutcome (key version : ℕ) : ResolveOutcome ℕ ℕ :=
  ⟨[key], Dict.empty.set key (exampleValue key version), .empty,
    Dict.empty.set key (exampleValue key version),
    fun k => by simp [Dict.mem_keys_set],
    fun k _ => by simp⟩

/-- Key 0 is resolved; the resolution of key 1 is cancelled while its producer goes on. -/
def abandonedResolve : List (SessionEvent ℕ ℕ) :=
  [.resolve [0] true false, .resolved (exampleOutcome 0 0) [], .delivered, .resolve [1] true false,
    .unresolved .cancelled (Dict.empty.set 0 (exampleValue 0 0)) [1]]

def revalidateKeyZero : SessionEvent ℕ ℕ := .revalidate [0] true false none none

theorem revalidate_all_or_nothing_commits :
    ∃ s t u, Run sessionStep (Session.new false) abandonedResolve s ∧
      sessionStep s revalidateKeyZero = some t ∧ (u.resources.get? 0).map (·.version) = some 1 ∧
      AllOrNothing s (Dict.fromKeys [0]) [.resolved (exampleOutcome 0 1) [], .delivered] u := by
  have hend : ((exec sessionStep (Session.new false) abandonedResolve).bind fun s =>
      (sessionStep s revalidateKeyZero).bind fun t =>
        (execOf sessionStep (fun w _ => w.phase.isSome) t
          [.resolved (exampleOutcome 0 1) [], .delivered]).map fun u =>
            (u.phase.isNone, (u.resources.get? 0).map (·.version))) = some (true, some 1) := by
    decide +kernel
  obtain ⟨s, hs, hend⟩ := Option.bind_eq_some_iff.mp hend
  obtain ⟨t, ht, hend⟩ := Option.bind_eq_some_iff.mp hend
  obtain ⟨u, hu, hend⟩ := Option.map_eq_some_iff.mp hend
  rw [Prod.mk.injEq, Option.isNone_iff_eq_none] at hend
  exact ⟨s, t, u, exec_run hs, ht, hend.2, revalidate_all_or_nothing ht (execOf_run hu) hend.1⟩

/-- The error that a call has raised. -/
def CallOutcome.error? {K V : Type} : CallOutcome K V → Option (SessionError K)
  | .raised error => some error
  | _ => none

theorem CallOutcome.error?_eq_some {K V : Type} {outcome : CallOutcome K V} {error : SessionError K} :
    outcome.error? = some error ↔ outcome = .raised error := by
  cases outcome <;> simp [CallOutcome.error?]

/-- A revalidation that fails while a producer of the cancelled call is still running does not
leave the session memo as it was. -/
theorem failed_revalidation_changes_memo :
    ¬ ∀ (s t u : Session ℕ ℕ) (es fs : List (SessionEvent ℕ ℕ)) (error : SessionError ℕ),
      Run sessionStep (Session.new false) es s → sessionStep s revalidateKeyZero = some t →
      RunOf sessionStep (fun w _ => w.phase.isSome) t fs u → u.phase = none →
      u.last = some (.raised error) →
      u.resources = s.resources ∧ u.errors = s.errors ∧ u.memo = s.memo := by
  intro h
  have hend : ((exec sessionStep (Session.new false) abandonedResolve).bind fun s =>
      (sessionStep s revalidateKeyZero).bind fun t =>
        (execOf sessionStep (fun w _ => w.phase.isSome) t
          [.stray 1 (exampleValue 1 1), .unresolved .error .empty []]).map fun u =>
            (u.phase.isNone, u.last.bind CallOutcome.error?,
              (s.memo.get? 1).isSome, (u.memo.get? 1).isSome)) =
      some (true, some .other, false, true) := by decide +kernel
  obtain ⟨s, hs, hend⟩ := Option.bind_eq_some_iff.mp hend
  obtain ⟨t, ht, hend⟩ := Option.bind_eq_some_iff.mp hend
  obtain ⟨u, hu, hend⟩ := Option.map_eq_some_iff.mp hend
  simp only [Prod.mk.injEq, Option.isNone_iff_eq_none] at hend
  obtain ⟨hphase, hlast, hbefore, hafter⟩ := hend
  have hraised : u.last = some (.raised .other) := by
    obtain ⟨outcome, hlast, herror⟩ := Option.bind_eq_some_iff.mp hlast
    rw [hlast, CallOutcome.error?_eq_some.mp herror]
  have hmemo := (h s t u _ _ .other (exec_run hs) ht (execOf_run hu) hphase hraised).2.2
  rw [hmemo, hbefore] at hafter
  cases hafter

end Coalestra
