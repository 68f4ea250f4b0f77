import Mathlib.Tactic.Tauto
import Coalestra.Orchestration.Session

/-! # Strict and non-strict resolution

`orchestration/session.py`: `SnapshotSession.resolve` from one state, once with `strict=True` and
once with `strict=False`, while the sources and the deadline behave alike. The two calls go through
the same awaits until the deadline interrupts one: the strict call then reports every requested key,
the other marks the pending ones. -/

namespace Coalestra
set_option autoImplicit false
set_option maxHeartbeats 250000

section
variable {K V : Type} [DecidableEq K]

/-! ## One call -/

/-- The events of a call in progress: the ends of its awaits and what happens beside it. -/
def SessionEvent.inCall : SessionEvent K V → Bool
  | .resolved _ _ => true
  | .unresolved _ _ _ => true
  | .delivered => true
  | .undelivered _ => true
  | .stray _ _ => true
  | .snapshot => true
  | _ => false

/-- The deadline ends an await. -/
def SessionEvent.struck : SessionEvent K V → Bool
  | .unresolved .deadline _ _ => true
  | .undelivered .deadline => true
  | _ => false

/-- `candidate_errors` at the start of the call. -/
def Session.keptErrors (s : Session K V) (requested : List K) (retryErrors : Bool) :
    Dict K (Error K) :=
  if retryErrors then s.errors.filter fun k => decide (k ∉ requested) else s.errors

/-- The session holds a value of `k` and no error the call keeps. -/
def Session.Pinned (s : Session K V) (requested : List K) (retryErrors : Bool) (k : K) : Prop :=
  k ∈ s.resources.keys ∧ k ∉ (s.keptErrors requested retryErrors).keys

/-- The call as it stands: its requested keys, and that the keys which fail or are pending are the
requested keys the session does not pin. -/
structure CallOf (s : Session K V) (requested : List K) (retryErrors : Bool)
    (c : ResolveCall K V) : Prop where
  nonempty : requested ≠ []
  asked : c.requested = requested
  plain : c.request = none
  unpinned : ∀ k ∈ requested,
    k ∈ c.candidateErrors.keys ∨ k ∈ c.pending ↔ ¬ s.Pinned requested retryErrors k

/-- The strict call raises `SnapshotBuildError` exactly when the other returns an error of a
requested key, and the two name the same keys. -/
structure Agree (requested : List K) (strict lenient : Session K V) : Prop where
  raises : (∃ keys, strict.last = some (.raised (.build keys))) ↔
    ∃ resources errors transient, lenient.last = some (.returned resources errors transient) ∧
      ∃ k ∈ requested, k ∈ errors.keys
  keys : ∀ keys resources errors transient, strict.last = some (.raised (.build keys)) →
    lenient.last = some (.returned resources errors transient) →
      ∀ k, k ∈ keys ↔ k ∈ requested ∧ k ∈ errors.keys

/-- The two calls side by side; `true` once the deadline has interrupted them. -/
inductive Twin (s : Session K V) (requested : List K) (retryErrors : Bool) :
    Bool → Session K V → Session K V → Prop
  | resolving (x : Session K V) (c : ResolveCall K V) : CallOf s requested retryErrors c →
      Twin s requested retryErrors false (x.await (.resolving { c with strict := true }))
        (x.await (.resolving { c with strict := false }))
  | delivering (x : Session K V) (c : ResolveCall K V) : CallOf s requested retryErrors c →
      Twin s requested retryErrors false (x.await (.delivering { c with strict := true }))
        (x.await (.delivering { c with strict := false }))
  | ended (a b : Session K V) : a.phase = none → b.phase = none → Agree requested a b →
      Twin s requested retryErrors false a b
  | late (a b : Session K V) (c : ResolveCall K V) : requested ≠ [] → a.phase = none →
      a.last = some (.raised (.build requested)) → b.phase = some (.lateDelivering c) →
      c.request = none →
      (∀ k ∈ requested, k ∈ b.errors.keys ↔ ¬ s.Pinned requested retryErrors k) →
      Twin s requested retryErrors true a b

/-! ## The two calls step by step -/

omit [DecidableEq K] in
/-- Neither call raises a build error and neither returns. -/
theorem Agree.of_last {requested : List K} {a b : Session K V} {outcome : CallOutcome K V}
    (ha : a.last = some outcome) (hb : b.last = some outcome)
    (hbuild : ∀ keys, outcome ≠ .raised (.build keys))
    (hreturned : ∀ resources errors transient, outcome ≠ .returned resources errors transient) :
    Agree requested a b := by
  have hstrict : ∀ keys, a.last ≠ some (.raised (.build keys)) := by
    intro keys h
    rw [ha, Option.some.injEq] at h
    exact hbuild keys h
  refine ⟨⟨fun ⟨keys, h⟩ => absurd h (hstrict keys), ?_⟩, fun keys _ _ _ h => absurd h (hstrict keys)⟩
  rintro ⟨resources, errors, transient, h, _⟩
  rw [hb, Option.some.injEq] at h
  exact absurd h (hreturned resources errors transient)

theorem resolveDelivered_last (x : Session K V) (c : ResolveCall K V) :
    (x.resolveDelivered c).last =
      some (if c.requestedErrors.keys ≠ [] ∧ c.strict = true then
        .raised (.build c.requestedErrors.keys)
      else c.outcome c.candidateResources c.candidateErrors) := by
  unfold Session.resolveDelivered
  split
  · rfl
  · rfl

theorem resolveDelivered_phase (x : Session K V) (c : ResolveCall K V) :
    (x.resolveDelivered c).phase = none := by
  unfold Session.resolveDelivered
  split
  · rfl
  · rfl

/-- The delivered calls agree. -/
theorem agree_delivered {s x y : Session K V} {requested : List K} {retryErrors : Bool}
    {c : ResolveCall K V} (h : CallOf s requested retryErrors c) :
    Agree requested (x.resolveDelivered { c with strict := true })
      (y.resolveDelivered { c with strict := false }) := by
  have hkeys : ∀ k, k ∈ ({ c with strict := true } : ResolveCall K V).requestedErrors.keys ↔
      k ∈ requested ∧ k ∈ c.candidateErrors.keys := by
    intro k
    rw [ResolveCall.requestedErrors, Dict.mem_keys_filter, decide_eq_true_eq]
    simp only [h.asked]
  have houtcome : ∀ strict : Bool, ({ c with strict := strict } : ResolveCall K V).outcome
      c.candidateResources c.candidateErrors =
        .returned c.candidateResources c.candidateErrors .empty := by
    intro strict
    unfold ResolveCall.outcome
    simp only [h.plain]
  have hlenient : (y.resolveDelivered { c with strict := false }).last =
      some (.returned c.candidateResources c.candidateErrors .empty) := by
    rw [resolveDelivered_last, if_neg (by simp), houtcome]
  by_cases hnil : ({ c with strict := true } : ResolveCall K V).requestedErrors.keys = []
  · have hstrict : (x.resolveDelivered { c with strict := true }).last =
        some (.returned c.candidateResources c.candidateErrors .empty) := by
      rw [resolveDelivered_last, if_neg (fun h => h.1 hnil), houtcome]
    refine ⟨⟨fun ⟨keys, hk⟩ => ?_, ?_⟩, fun keys _ _ _ hk => ?_⟩
    · rw [hstrict, Option.some.injEq] at hk
      cases hk
    · rintro ⟨resources, errors, transient, hb, k, hk, herr⟩
      rw [hlenient, Option.some.injEq, CallOutcome.returned.injEq] at hb
      obtain ⟨_, rfl, _⟩ := hb
      have hmem := (hkeys k).mpr ⟨hk, herr⟩
      rw [hnil] at hmem
      exact absurd hmem List.not_mem_nil
    · rw [hstrict, Option.some.injEq] at hk
      cases hk
  · have hstrict : (x.resolveDelivered { c with strict := true }).last = some (.raised (.build
        ({ c with strict := true } : ResolveCall K V).requestedErrors.keys)) := by
      rw [resolveDelivered_last, if_pos ⟨hnil, rfl⟩]
    refine ⟨⟨fun _ => ?_, fun _ => ⟨_, hstrict⟩⟩, fun keys resources errors transient hk hb k => ?_⟩
    · obtain ⟨k, hk⟩ := List.exists_mem_of_ne_nil _ hnil
      obtain ⟨hreq, herr⟩ := (hkeys k).mp hk
      exact ⟨_, _, _, hlenient, k, hreq, herr⟩
    · rw [hstrict, Option.some.injEq, CallOutcome.raised.injEq, SessionError.build.injEq] at hk
      rw [hlenient, Option.some.injEq, CallOutcome.returned.injEq] at hb
      obtain ⟨_, rfl, _⟩ := hb
      rw [← hk]
      exact hkeys k

/-- The deadline separates the two calls. -/
theorem late_of_deadline {s x y : Session K V} {requested : List K} {retryErrors : Bool}
    {c : ResolveCall K V} (h : CallOf s requested retryErrors c) :
    Twin s requested retryErrors true (x.resolveDeadline { c with strict := true })
      (y.resolveDeadline { c with strict := false }) := by
  refine .late _ _ { c with strict := false } h.nonempty rfl ?_ rfl h.plain fun k hk => ?_
  · simp [Session.resolveDeadline, Session.finish, h.asked]
  · rw [← h.unpinned k hk]
    simp [Session.resolveDeadline, Dict.mem_keys_update, deadlineResolutionErrors,
      Dict.mem_keys_comprehend, or_comm]

/-- What the outcome adds are errors of pending keys. -/
theorem CallOf.resolved {s : Session K V} {requested : List K} {retryErrors : Bool}
    {c : ResolveCall K V} (h : CallOf s requested retryErrors c) {o : ResolveOutcome K V}
    (ho : o.keys = c.pending) : CallOf s requested retryErrors { c with
      candidateResources := c.candidateResources.update o.values
      candidateErrors := c.candidateErrors.update o.errors } := by
  refine ⟨h.nonempty, h.asked, h.plain, fun k hk => ?_⟩
  rw [← h.unpinned k hk]
  simp only [Dict.mem_keys_update]
  constructor
  · rintro ((herr | hold) | hpending)
    · exact .inr (ho ▸ (o.covers k).mpr (.inr herr))
    · exact .inl hold
    · exact .inr hpending
  · rintro (hold | hpending)
    · exact .inl (.inr hold)
    · exact .inr hpending

/-- With no call in progress only the memo can change. -/
theorem idle_step {a a' : Session K V} {e : SessionEvent K V} (hidle : a.phase = none)
    (he : e.inCall = true) (h : sessionStep a e = some a') :
    a'.phase = none ∧ a'.last = a.last ∧ e.struck = false := by
  cases e with
  | resolved o l => simp [sessionStep, Session.onResolved, hidle] at h
  | unresolved i m l => simp [sessionStep, Session.onUnresolved, hidle] at h
  | delivered => simp [sessionStep, Session.onDelivered, hidle] at h
  | undelivered i => simp [sessionStep, Session.onUndelivered, hidle] at h
  | stray k v =>
    rw [sessionStep] at h
    split at h
    · rw [Option.some.injEq] at h
      subst h
      exact ⟨hidle, rfl, rfl⟩
    · cases h
  | snapshot =>
    rw [sessionStep, Option.some.injEq] at h
    subst h
    exact ⟨hidle, rfl, rfl⟩
  | _ => cases he

theorem stray_step {a a' : Session K V} {k : K} {v : SnapshotValue K V}
    (h : sessionStep a (.stray k v) = some a') : a' = { a with memo := a.memo.set k v } := by
  rw [sessionStep] at h
  split at h
  · rw [Option.some.injEq] at h
    exact h.symm
  · cases h

/-- An interrupt of both awaits: the deadline separates the calls, any other ends them alike. -/
theorem twin_interrupted {s x y onA onB a' b' : Session K V} {requested : List K}
    {retryErrors enforce : Bool} {i : Interrupt}
    (hlate : Twin s requested retryErrors true onA onB)
    (ha : x.interrupted enforce i onA = some a') (hb : y.interrupted enforce i onB = some b') :
    Twin s requested retryErrors (decide (i = .deadline)) a' b' := by
  cases i with
  | deadline =>
    simp only [Session.interrupted] at ha hb
    split at ha
    · split at hb
      · rw [Option.some.injEq] at ha hb
        subst ha hb
        exact hlate
      · cases hb
    · cases ha
  | cancelled =>
    rw [Session.interrupted, Option.some.injEq] at ha hb
    subst ha hb
    exact .ended _ _ rfl rfl (.of_last rfl rfl nofun nofun)
  | error =>
    rw [Session.interrupted, Option.some.injEq] at ha hb
    subst ha hb
    exact .ended _ _ rfl rfl (.of_last rfl rfl nofun nofun)

/-- A step of both calls keeps them side by side. -/
theorem twin_step {s a b a' b' : Session K V} {requested : List K} {retryErrors struck : Bool}
    {e : SessionEvent K V} (h : Twin s requested retryErrors struck a b)
    (he : e.inCall = true) (ha : sessionStep a e = some a') (hb : sessionStep b e = some b') :
    Twin s requested retryErrors (struck || e.struck) a' b' := by
  cases h with
  | resolving x c hc =>
    cases e with
    | resolved o l =>
      simp only [sessionStep, Session.onResolved, Session.await] at ha hb
      split at ha
      · rename_i ho
        rw [if_pos ho] at hb
        rw [Option.some.injEq] at ha hb
        subst ha hb
        exact .delivering { x with memo := o.memo, leftovers := x.leftovers ++ l } _ (hc.resolved ho)
      · cases ha
    | unresolved i m l =>
      have hstruck : (SessionEvent.unresolved i m l).struck = decide (i = .deadline) := by
        cases i <;> rfl
      rw [hstruck]
      exact twin_interrupted (late_of_deadline hc) ha hb
    | stray k v =>
      rw [stray_step ha, stray_step hb]
      exact .resolving { x with memo := x.memo.set k v } c hc
    | snapshot =>
      rw [sessionStep, Option.some.injEq] at ha hb
      subst ha hb
      exact .resolving x c hc
    | delivered => cases ha
    | undelivered _ => cases ha
    | _ => cases he
  | delivering x c hc =>
    cases e with
    | delivered =>
      simp only [sessionStep, Session.onDelivered, Session.await, Option.some.injEq] at ha hb
      subst ha hb
      exact .ended _ _ (resolveDelivered_phase _ _) (resolveDelivered_phase _ _)
        (agree_delivered hc)
    | undelivered i =>
      have hstruck : (SessionEvent.undelivered i : SessionEvent K V).struck =
          decide (i = .deadline) := by
        cases i <;> rfl
      rw [hstruck]
      exact twin_interrupted (late_of_deadline hc) ha hb
    | stray k v =>
      rw [stray_step ha, stray_step hb]
      exact .delivering { x with memo := x.memo.set k v } c hc
    | snapshot =>
      rw [sessionStep, Option.some.injEq] at ha hb
      subst ha hb
      exact .delivering x c hc
    | resolved _ _ => cases ha
    | unresolved _ _ _ => cases ha
    | _ => cases he
  | ended a b hpa hpb hagree =>
    obtain ⟨hpa', hla, hstruck⟩ := idle_step hpa he ha
    obtain ⟨hpb', hlb, _⟩ := idle_step hpb he hb
    rw [hstruck]
    refine .ended a' b' hpa' hpb' ?_
    obtain ⟨hraises, hkeys⟩ := hagree
    rw [← hla, ← hlb] at hraises
    rw [← hla, ← hlb] at hkeys
    exact ⟨hraises, hkeys⟩
  | late a b c hne hpa hlast hpb hplain herrors =>
    obtain ⟨hpa', hla, _⟩ := idle_step hpa he ha
    rw [Bool.true_or]
    cases e with
    | stray k v =>
      rw [stray_step hb]
      exact .late a' _ c hne hpa' (hla.trans hlast) hpb hplain herrors
    | snapshot =>
      rw [sessionStep, Option.some.injEq] at hb
      subst hb
      exact .late a' b c hne hpa' (hla.trans hlast) hpb hplain herrors
    | resolved o l => simp [sessionStep, Session.onResolved, hpa] at ha
    | unresolved i m l => simp [sessionStep, Session.onUnresolved, hpa] at ha
    | delivered => simp [sessionStep, Session.onDelivered, hpa] at ha
    | undelivered i => simp [sessionStep, Session.onUndelivered, hpa] at ha
    | _ => cases he

theorem twin_run {s : Session K V} {requested : List K} {retryErrors : Bool} :
    ∀ {es : List (SessionEvent K V)} {struck : Bool} {a b a' b' : Session K V},
      Twin s requested retryErrors struck a b → (∀ e ∈ es, e.inCall = true) →
      Run sessionStep a es a' → Run sessionStep b es b' →
      Twin s requested retryErrors (struck || es.any SessionEvent.struck) a' b'
  | [], struck, a, b, a', b', h, _, hra, hrb => by
      cases hra
      cases hrb
      rw [List.any_nil, Bool.or_false]
      exact h
  | e :: es, struck, a, b, a', b', h, hes, hra, hrb => by
      cases hra with
      | cons _ ha hra =>
        cases hrb with
        | cons _ hb hrb =>
          rw [List.any_cons, ← Bool.or_assoc]
          have hstep := twin_step h (hes e List.mem_cons_self) ha hb
          exact twin_run hstep (fun e' he' => hes e' (List.mem_cons_of_mem _ he')) hra hrb

/-- Both calls begin alike. -/
theorem twin_begin {s a b : Session K V} {keys : List K} {retryErrors : Bool}
    (ha : sessionStep s (.resolve keys true retryErrors) = some a)
    (hb : sessionStep s (.resolve keys false retryErrors) = some b) :
    Twin s (Dict.fromKeys keys) retryErrors false a b := by
  simp only [sessionStep, Session.locked] at ha hb
  split at ha
  · rename_i hfree
    rw [if_pos hfree] at hb
    rw [Option.some.injEq] at ha hb
    subst ha hb
    unfold Session.beginResolve
    by_cases hclosed : s.closed = true
    · rw [if_pos hclosed, if_pos hclosed]
      exact .ended _ _ rfl rfl (.of_last rfl rfl nofun nofun)
    · rw [if_neg hclosed, if_neg hclosed]
      by_cases hnil : Dict.fromKeys keys = []
      · simp only [hnil, if_true]
        exact .ended _ _ rfl rfl (.of_last rfl rfl nofun nofun)
      · simp only [hnil, if_false]
        set errors := if retryErrors = true then
          s.errors.filter fun k => decide (k ∉ Dict.fromKeys keys) else s.errors with herrors
        set pending := (Dict.fromKeys keys).filter fun k =>
          decide (k ∉ s.resources.keys ∧ k ∉ errors.keys) with hpending
        have hcall : CallOf s (Dict.fromKeys keys) retryErrors
            ⟨Dict.fromKeys keys, pending, true, none, s.resources, errors⟩ := by
          refine ⟨hnil, rfl, rfl, fun k hk => ?_⟩
          have hkept : s.keptErrors (Dict.fromKeys keys) retryErrors = errors := rfl
          rw [Session.Pinned, hkept, hpending]
          simp only [List.mem_filter, hk, true_and, decide_eq_true_eq]
          tauto
        by_cases hnone : pending = []
        · rw [if_pos hnone, if_pos hnone]
          exact .delivering s _ hcall
        · rw [if_neg hnone, if_neg hnone]
          exact .resolving s _ hcall
  · cases ha

/-- Separated calls agree when no requested key is pinned. -/
theorem agree_late_iff {s a b : Session K V} {requested : List K} {retryErrors : Bool}
    {resources : Dict K (SnapshotValue K V)} {errors transient : Dict K (Error K)}
    (hne : requested ≠ []) (ha : a.last = some (.raised (.build requested)))
    (hb : b.last = some (.returned resources errors transient))
    (herrors : ∀ k ∈ requested, k ∈ errors.keys ↔ ¬ s.Pinned requested retryErrors k) :
    Agree requested a b ↔ ∀ k ∈ requested, ¬ s.Pinned requested retryErrors k := by
  constructor
  · intro h k hk
    exact (herrors k hk).mp ((h.keys _ _ _ _ ha hb k).mp hk).2
  · intro h
    have hall : ∀ k ∈ requested, k ∈ errors.keys := fun k hk => (herrors k hk).mpr (h k hk)
    refine ⟨⟨fun _ => ?_, fun _ => ⟨_, ha⟩⟩, fun keys resources' errors' transient' hk hb' k => ?_⟩
    · obtain ⟨k, hk⟩ := List.exists_mem_of_ne_nil _ hne
      exact ⟨_, _, _, hb, k, hk, hall k hk⟩
    · rw [ha, Option.some.injEq, CallOutcome.raised.injEq, SessionError.build.injEq] at hk
      rw [hb, Option.some.injEq, CallOutcome.returned.injEq] at hb'
      rw [← hk, ← hb'.2.1]
      exact ⟨fun hm => ⟨hm, hall k hm⟩, fun hm => hm.1⟩

end

/-! ## The deadline at the delivery -/

/-- Key 1 is resolved, the deadline is still to come. -/
def pinnedSession : Session ℕ ℕ :=
  let value : SnapshotValue ℕ ℕ := ⟨1, 7, "rest", 0, 0, 0, false, false, 0, 1, .empty⟩
  { Session.new true with resources := Dict.empty.set 1 value, memo := Dict.empty.set 1 value }

end Coalestra
