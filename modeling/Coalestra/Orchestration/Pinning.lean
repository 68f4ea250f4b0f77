import Coalestra.Orchestration.Revalidation

/-! # Visible values stay pinned

Over whole runs of a session, whatever its calls resolve, fail or reach their deadline on: a key
that is visible stays visible, and its version changes only when a revalidation commits whose
selected keys reach it through the dependency versions recorded when the call began. -/

namespace Coalestra
set_option autoImplicit false
set_option maxHeartbeats 250000

section
variable {K V : Type} [DecidableEq K]

/-! ## One step -/

/-- Every entry of `a` is an entry of `b`. -/
def Extends (a b : Dict K (SnapshotValue K V)) : Prop :=
  ∀ k v, a.get? k = some v → b.get? k = some v

theorem extends_update {a b c : Dict K (SnapshotValue K V)} (h : Extends a b)
    (hc : ∀ k, k ∈ c.keys → k ∉ a.keys) : Extends a (b.update c) := by
  intro k v hk
  rw [Dict.get?_update]
  have hnone : c.get? k = none := by
    rw [Dict.get?_eq_none]
    exact fun hmem => hc k hmem (Dict.mem_keys_of_get? hk)
  rw [hnone]
  exact h k v hk

/-- The candidate state of the call in progress, relative to the visible state. -/
def CallSound (s : Session K V) : Prop :=
  match s.phase with
  | some (.resolving c) => c.candidateResources = s.resources ∧ ∀ k ∈ c.pending, k ∉ s.resources.keys
  | some (.delivering c) => Extends s.resources c.candidateResources
  | some (.committing c resources _ _) =>
      (∀ k, k ∉ c.targets → resources.get? k = s.resources.get? k) ∧
      ∀ k, k ∈ s.resources.keys → k ∈ resources.keys
  | _ => True

/-- A step extends the visible resources, or it commits a revalidation of its targets. -/
inductive VisibleChange (s t : Session K V) (e : SessionEvent K V) : Prop
  | extend : Extends s.resources t.resources → VisibleChange s t e
  | commit (c : RevalidateCall K V) (errors : Dict K (Error K))
      (memo : Dict K (SnapshotValue K V)) :
      e = .delivered → s.phase = some (.committing c t.resources errors memo) →
      (∀ k, k ∉ c.targets → t.resources.get? k = s.resources.get? k) →
      (∀ k, k ∈ s.resources.keys → k ∈ t.resources.keys) → VisibleChange s t e

theorem VisibleChange.same {s t : Session K V} {e : SessionEvent K V}
    (h : t.resources = s.resources) : VisibleChange s t e :=
  .extend fun k v hk => by rw [h]; exact hk

theorem finish_sound (s : Session K V) (outcome : CallOutcome K V) :
    CallSound (s.finish outcome) := trivial

theorem replaceTargets_other {values resources after : Dict K (SnapshotValue K V)}
    {targets : List K} (h : replaceTargets values targets resources = some after) :
    (∀ k, k ∉ targets → after.get? k = resources.get? k) ∧
      ∀ k, k ∈ resources.keys → k ∈ after.keys := by
  obtain ⟨hget, hsome⟩ := replaceTargets_spec h
  constructor
  · intro k hk
    rw [hget k, if_neg fun h => hk h.1]
  · intro k hk
    by_cases ht : k ∈ targets
    · obtain ⟨v, hv⟩ := hsome k ht hk
      exact Dict.mem_keys_of_get? ((hget k).trans ((if_pos ⟨ht, hk⟩).trans hv))
    · obtain ⟨v, hv⟩ := Dict.mem_keys.mp hk
      exact Dict.mem_keys_of_get? ((hget k).trans ((if_neg fun h => ht h.1).trans hv))

theorem beginResolve_sound (s : Session K V) (keys : List K) (strict retryErrors : Bool)
    (request : Option (SnapshotRequest K V)) :
    CallSound (s.beginResolve keys strict retryErrors request) ∧
      (s.beginResolve keys strict retryErrors request).resources = s.resources := by
  unfold Session.beginResolve
  simp only
  split
  · exact ⟨trivial, rfl⟩
  · split
    · exact ⟨trivial, rfl⟩
    · generalize (if retryErrors then _ else s.errors) = errors
      split
      · exact ⟨fun k v hk => hk, rfl⟩
      · refine ⟨⟨rfl, fun k hk => ?_⟩, rfl⟩
        simp only [List.mem_filter, decide_eq_true_eq] at hk
        exact hk.2.1

theorem beginRevalidate_sound (s : Session K V) (keys : List K) (strict forceRefresh : Bool)
    (p : Option SnapshotConsistencyPolicy) (q : Option (Dict K (SnapshotValue K V) → Bool)) :
    CallSound (s.beginRevalidate keys strict forceRefresh p q) ∧
      (s.beginRevalidate keys strict forceRefresh p q).resources = s.resources := by
  unfold Session.beginRevalidate
  simp only
  split
  · exact ⟨trivial, rfl⟩
  · split
    · exact ⟨trivial, rfl⟩
    · split
      · exact ⟨trivial, rfl⟩
      · exact ⟨trivial, rfl⟩

theorem propose_sound (s : Session K V) (c : RevalidateCall K V)
    (values memo : Dict K (SnapshotValue K V)) :
    CallSound (s.propose c values memo) ∧ (s.propose c values memo).resources = s.resources := by
  unfold Session.propose
  split
  · exact ⟨trivial, rfl⟩
  · rename_i resources hreplace
    split
    · exact ⟨trivial, rfl⟩
    · exact ⟨replaceTargets_other hreplace, rfl⟩

theorem checkConsistency_sound (s : Session K V) (c : RevalidateCall K V)
    (values memo : Dict K (SnapshotValue K V)) (attempted : List (K × String)) :
    CallSound (s.checkConsistency c values memo attempted) ∧
      (s.checkConsistency c values memo attempted).resources = s.resources := by
  unfold Session.checkConsistency
  split
  · exact propose_sound s c values memo
  · split
    · unfold Session.retry
      split
      · exact ⟨trivial, rfl⟩
      · split
        · exact ⟨trivial, rfl⟩
        · exact ⟨trivial, rfl⟩
    · exact ⟨trivial, rfl⟩

omit [DecidableEq K] in
/-- An await that fails: the call ends with the visible state untouched, or goes on to `t`. -/
theorem interrupted_cases {s t u : Session K V} {enforce : Bool} {interrupt : Interrupt}
    (h : s.interrupted enforce interrupt t = some u) :
    u = t ∨ ∃ outcome, u = s.finish outcome := by
  cases interrupt with
  | deadline =>
    simp only [Session.interrupted] at h
    split at h
    · exact .inl (Option.some.inj h).symm
    · cases h
  | cancelled => exact .inr ⟨_, (Option.some.inj h).symm⟩
  | error => exact .inr ⟨_, (Option.some.inj h).symm⟩

theorem resolveDeadline_change {s : Session K V} {c : ResolveCall K V} (e : SessionEvent K V)
    (h : Extends s.resources c.candidateResources) :
    CallSound (s.resolveDeadline c) ∧ VisibleChange s (s.resolveDeadline c) e := by
  unfold Session.resolveDeadline
  split
  · exact ⟨trivial, .same rfl⟩
  · exact ⟨trivial, .extend h⟩

theorem resolveDelivered_change {s : Session K V} {c : ResolveCall K V} (e : SessionEvent K V)
    (h : Extends s.resources c.candidateResources) :
    CallSound (s.resolveDelivered c) ∧ VisibleChange s (s.resolveDelivered c) e := by
  unfold Session.resolveDelivered
  simp only
  split
  · exact ⟨trivial, .extend h⟩
  · exact ⟨trivial, .extend h⟩

theorem resolved_change {s t : Session K V} {o : ResolveOutcome K V} {leftovers : List K}
    (hs : CallSound s) (h : s.onResolved o leftovers = some t) :
    CallSound t ∧ VisibleChange s t (.resolved o leftovers) := by
  unfold Session.onResolved at h
  unfold CallSound at hs
  cases hphase : s.phase with
  | none => simp [hphase] at h
  | some phase =>
    rw [hphase] at h hs
    cases phase with
    | resolving c =>
      simp only at h hs
      split at h
      · rename_i hkeys
        rw [Option.some.injEq] at h
        rw [← h]
        refine ⟨?_, .same rfl⟩
        refine extends_update (by rw [hs.1]; exact fun _ _ h => h) fun k hk => ?_
        apply hs.2
        rw [← hkeys]
        exact (o.covers k).mpr (.inl hk)
      · cases h
    | staging c =>
      simp only at h
      split at h
      · split at h
        · rw [Option.some.injEq] at h
          rw [← h]
          obtain ⟨hsound, hres⟩ := checkConsistency_sound s c o.values o.memo []
          exact ⟨hsound, .same hres⟩
        · rw [Option.some.injEq] at h
          rw [← h]
          exact ⟨trivial, .same rfl⟩
      · cases h
    | retrying c r =>
      simp only at h
      split at h
      · split at h
        · rw [Option.some.injEq] at h
          rw [← h]
          obtain ⟨hsound, hres⟩ :=
            checkConsistency_sound s c (r.values.update o.values) o.memo r.attempted
          exact ⟨hsound, .same hres⟩
        · rw [Option.some.injEq] at h
          rw [← h]
          exact ⟨trivial, .same rfl⟩
      · cases h
    | _ => simp at h

/-- A failed await of a revalidation keeps the visible state. -/
theorem interrupted_finish_change {s t : Session K V} {enforce : Bool} {interrupt : Interrupt}
    {outcome : CallOutcome K V} {e : SessionEvent K V}
    (h : s.interrupted enforce interrupt (s.finish outcome) = some t) :
    CallSound t ∧ VisibleChange s t e := by
  rcases interrupted_cases h with rfl | ⟨outcome', rfl⟩
  · exact ⟨trivial, .same rfl⟩
  · exact ⟨trivial, .same rfl⟩

theorem unresolved_change {s t : Session K V} {interrupt : Interrupt}
    {memo : Dict K (SnapshotValue K V)} {leftovers : List K} (hs : CallSound s)
    (h : s.onUnresolved interrupt memo leftovers = some t) :
    CallSound t ∧ VisibleChange s t (.unresolved interrupt memo leftovers) := by
  unfold Session.onUnresolved at h
  unfold CallSound at hs
  cases hphase : s.phase with
  | none => simp [hphase] at h
  | some phase =>
    rw [hphase] at h hs
    cases phase with
    | resolving c =>
      simp only at h hs
      have hext : Extends s.resources c.candidateResources := by
        rw [hs.1]
        exact fun _ _ h => h
      rcases interrupted_cases h with rfl | ⟨outcome, rfl⟩
      · obtain ⟨hsound, hchange⟩ := resolveDeadline_change
          (s := { s with memo := memo, leftovers := s.leftovers ++ leftovers })
          (.unresolved interrupt memo leftovers) hext
        refine ⟨hsound, ?_⟩
        cases hchange with
        | extend hextend => exact .extend hextend
        | commit c' errors memo' he _ _ _ => cases he
      · exact ⟨trivial, .same rfl⟩
    | staging c => exact interrupted_finish_change h
    | retrying c r => exact interrupted_finish_change h
    | _ => simp at h

theorem delivered_change {s t : Session K V} (hs : CallSound s) (h : s.onDelivered = some t) :
    CallSound t ∧ VisibleChange s t .delivered := by
  unfold Session.onDelivered at h
  unfold CallSound at hs
  cases hphase : s.phase with
  | none => simp [hphase] at h
  | some phase =>
    rw [hphase] at h hs
    cases phase with
    | delivering c =>
      rw [Option.some.injEq] at h
      rw [← h]
      exact resolveDelivered_change _ hs
    | committing c resources errors memo =>
      rw [Option.some.injEq] at h
      rw [← h]
      exact ⟨trivial, .commit c errors memo rfl hphase hs.1 hs.2⟩
    | lateDelivering c =>
      rw [Option.some.injEq] at h
      rw [← h]
      exact ⟨trivial, .same rfl⟩
    | viewing =>
      rw [Option.some.injEq] at h
      rw [← h]
      exact ⟨trivial, .same rfl⟩
    | reporting c errors =>
      rw [Option.some.injEq] at h
      rw [← h]
      exact ⟨trivial, .same rfl⟩
    | rejecting error c =>
      rw [Option.some.injEq] at h
      rw [← h]
      exact ⟨trivial, .same rfl⟩
    | _ => simp at h

theorem undelivered_change {s t : Session K V} {interrupt : Interrupt} (hs : CallSound s)
    (h : s.onUndelivered interrupt = some t) :
    CallSound t ∧ VisibleChange s t (.undelivered interrupt) := by
  unfold Session.onUndelivered at h
  unfold CallSound at hs
  cases hphase : s.phase with
  | none => simp [hphase] at h
  | some phase =>
    rw [hphase] at h hs
    cases phase with
    | delivering c =>
      rcases interrupted_cases h with rfl | ⟨outcome, rfl⟩
      · exact resolveDeadline_change _ hs
      · exact ⟨trivial, .same rfl⟩
    | lateDelivering c =>
      rcases interrupted_cases h with rfl | ⟨outcome, rfl⟩
      · refine ⟨?_, .same rfl⟩
        unfold CallSound
        rw [hphase]
        trivial
      · exact ⟨trivial, .same rfl⟩
    | viewing => exact interrupted_finish_change h
    | reporting c errors => exact interrupted_finish_change h
    | rejecting error c => exact interrupted_finish_change h
    | committing c _ _ _ => exact interrupted_finish_change h
    | _ => simp at h

/-- One step of a session. -/
theorem session_step {s t : Session K V} {e : SessionEvent K V} (hs : CallSound s)
    (h : sessionStep s e = some t) : CallSound t ∧ VisibleChange s t e := by
  have hlocked : ∀ {u : Session K V}, s.locked u = some t → CallSound u →
      u.resources = s.resources → CallSound t ∧ VisibleChange s t e := by
    intro u hu hsound hres
    rw [Session.locked] at hu
    split at hu
    · rw [Option.some.injEq] at hu
      rw [← hu]
      exact ⟨hsound, .same hres⟩
    · cases hu
  cases e with
  | resolve keys strict retryErrors =>
    obtain ⟨hsound, hres⟩ := beginResolve_sound s keys strict retryErrors none
    exact hlocked h hsound hres
  | resolveRequest request retryErrors =>
    obtain ⟨hsound, hres⟩ := beginResolve_sound s (request.required ++ request.optional) false
      retryErrors (some request)
    exact hlocked h hsound hres
  | revalidate keys strict forceRefresh p q =>
    obtain ⟨hsound, hres⟩ := beginRevalidate_sound s keys strict forceRefresh p q
    exact hlocked h hsound hres
  | snapshotAsync => exact hlocked h trivial rfl
  | snapshot =>
    rw [sessionStep, Option.some.injEq] at h
    rw [← h]
    exact ⟨hs, .same rfl⟩
  | close =>
    simp only [sessionStep, Session.locked] at h
    split at h
    · rw [Option.some.injEq] at h
      rw [← h]
      exact ⟨hs, .same rfl⟩
    · cases h
  | resolved o leftovers => exact resolved_change hs h
  | unresolved interrupt memo leftovers => exact unresolved_change hs h
  | delivered => exact delivered_change hs h
  | undelivered interrupt => exact undelivered_change hs h
  | stray key value =>
    simp only [sessionStep] at h
    split at h
    · rw [Option.some.injEq] at h
      rw [← h]
      exact ⟨hs, .same rfl⟩
    · cases h

/-! ## The call in progress -/

/-- The revalidation a phase belongs to. -/
def CallPhase.revalidation : CallPhase K V → Option (RevalidateCall K V)
  | .staging c => some c
  | .reporting c _ => some c
  | .retrying c _ => some c
  | .rejecting _ c => some c
  | .committing c _ _ _ => some c
  | _ => none

def Session.revalidation (s : Session K V) : Option (RevalidateCall K V) :=
  s.phase.bind CallPhase.revalidation

/-- During `es` a revalidation of `selected` began with the session memo `memo`; it still holds the
session lock. -/
def InProgress (start : Session K V) (es : List (SessionEvent K V)) (s : Session K V)
    (selected : List K) (memo : Dict K (SnapshotValue K V)) : Prop :=
  ∃ before during keys strict forceRefresh p q u v,
    es = before ++ .revalidate keys strict forceRefresh p q :: during ∧
    Run sessionStep start before u ∧ u.memo = memo ∧ selected = Dict.fromKeys keys ∧
    sessionStep u (.revalidate keys strict forceRefresh p q) = some v ∧
    RunOf sessionStep (fun w _ => w.phase.isSome) v during s

theorem InProgress.snoc {start s t : Session K V} {es : List (SessionEvent K V)}
    {selected : List K} {memo : Dict K (SnapshotValue K V)} {e : SessionEvent K V}
    (h : InProgress start es s selected memo) (hbusy : s.phase.isSome)
    (hstep : sessionStep s e = some t) : InProgress start (es ++ [e]) t selected memo := by
  obtain ⟨before, during, keys, strict, forceRefresh, p, q, u, v, hes, hbefore, hmemo, hsel,
    hbegin, hduring⟩ := h
  refine ⟨before, during ++ [e], keys, strict, forceRefresh, p, q, u, v, ?_, hbefore, hmemo, hsel,
    hbegin, hduring.append (.cons hbusy hstep (.nil t))⟩
  rw [hes]
  simp

theorem propose_revalidation {s : Session K V} {c c' : RevalidateCall K V}
    {values memo : Dict K (SnapshotValue K V)}
    (h : (s.propose c values memo).revalidation = some c') : c' = c := by
  unfold Session.propose at h
  split at h
  · cases h
  · split at h
    · exact (Option.some.inj h).symm
    · exact (Option.some.inj h).symm

theorem checkConsistency_revalidation {s : Session K V} {c c' : RevalidateCall K V}
    {values memo : Dict K (SnapshotValue K V)} {attempted : List (K × String)}
    (h : (s.checkConsistency c values memo attempted).revalidation = some c') : c' = c := by
  unfold Session.checkConsistency at h
  split at h
  · exact propose_revalidation h
  · split at h
    · unfold Session.retry at h
      split at h
      · exact (Option.some.inj h).symm
      · split at h
        · exact (Option.some.inj h).symm
        · exact (Option.some.inj h).symm
    · exact (Option.some.inj h).symm

theorem resolveDeadline_revalidation (s : Session K V) (c : ResolveCall K V) :
    (s.resolveDeadline c).revalidation = none := by
  unfold Session.resolveDeadline
  split
  · rfl
  · rfl

theorem beginResolve_revalidation (s : Session K V) (keys : List K) (strict retryErrors : Bool)
    (request : Option (SnapshotRequest K V)) :
    (s.beginResolve keys strict retryErrors request).revalidation = none := by
  unfold Session.beginResolve
  simp only
  split
  · rfl
  · split
    · rfl
    · generalize (if retryErrors then _ else s.errors) = errors
      split
      · rfl
      · rfl

/-- A revalidation that begins targets only keys its selection reaches. -/
theorem beginRevalidate_targets {s : Session K V} {keys : List K} {strict forceRefresh : Bool}
    {p : Option SnapshotConsistencyPolicy} {q : Option (Dict K (SnapshotValue K V) → Bool)}
    {c : RevalidateCall K V}
    (h : (s.beginRevalidate keys strict forceRefresh p q).revalidation = some c) :
    ∀ k ∈ c.targets, Reached s.memo (Dict.fromKeys keys) k := by
  unfold Session.beginRevalidate at h
  simp only at h
  split at h
  · cases h
  · split at h
    · cases h
    · split at h
      · cases h
      · have hc := Option.some.inj h
        intro k hk
        rw [← hc] at hk
        simp only [Dict.mem_fromKeys, List.mem_append, List.mem_filter, decide_eq_true_eq] at hk
        rcases hk with hk | ⟨_, hk, _⟩
        · exact ⟨k, Dict.mem_fromKeys.mpr hk, .refl⟩
        · exact affectedKeysFromMemo_sound hk

/-- The revalidation of a session goes on, unless the step begins it. -/
theorem revalidation_step {s t : Session K V} {e : SessionEvent K V} {c : RevalidateCall K V}
    (h : sessionStep s e = some t) (ht : t.revalidation = some c) :
    (s.revalidation = some c ∧ s.phase.isSome) ∨
      ∃ keys strict forceRefresh p q, e = .revalidate keys strict forceRefresh p q ∧
        ∀ k ∈ c.targets, Reached s.memo (Dict.fromKeys keys) k := by
  have hbusy : ∀ {phase}, s.phase = some phase → s.phase.isSome := by
    intro phase hp
    rw [hp]
    rfl
  have hsame : ∀ {phase c'}, s.phase = some phase → phase.revalidation = some c' → c = c' →
      s.revalidation = some c ∧ s.phase.isSome := by
    intro phase c' hp hc he
    rw [Session.revalidation, hp, he]
    exact ⟨hc, rfl⟩
  have hinterrupt : ∀ {enforce interrupt outcome} {u : Session K V},
      u.interrupted enforce interrupt (u.finish outcome) = some t → False := by
    intro enforce interrupt outcome u hu
    rcases interrupted_cases hu with rfl | ⟨_, rfl⟩
    · cases ht
    · cases ht
  have hlocked : ∀ {u : Session K V}, s.locked u = some t → u = t := by
    intro u hu
    rw [Session.locked] at hu
    split at hu
    · exact Option.some.inj hu
    · cases hu
  cases e with
  | resolve keys strict retryErrors =>
    rw [← hlocked h, beginResolve_revalidation] at ht
    cases ht
  | resolveRequest request retryErrors =>
    rw [← hlocked h, beginResolve_revalidation] at ht
    cases ht
  | revalidate keys strict forceRefresh p q =>
    rw [← hlocked h] at ht
    exact .inr ⟨keys, strict, forceRefresh, p, q, rfl, beginRevalidate_targets ht⟩
  | snapshotAsync =>
    rw [← hlocked h] at ht
    cases ht
  | snapshot =>
    rw [sessionStep, Option.some.injEq] at h
    subst h
    left
    unfold Session.revalidation at ht ⊢
    cases hp : s.phase with
    | none => rw [hp] at ht; cases ht
    | some phase => rw [hp] at ht; exact ⟨ht, rfl⟩
  | close =>
    simp only [sessionStep, Session.locked] at h
    split at h
    · rename_i hfree
      rw [Option.some.injEq] at h
      rw [← h] at ht
      rw [Option.isNone_iff_eq_none] at hfree
      simp [Session.revalidation, hfree] at ht
    · cases h
  | resolved o leftovers =>
    left
    simp only [sessionStep, Session.onResolved] at h
    split at h
    · split at h
      · rw [Option.some.injEq] at h
        rw [← h] at ht
        cases ht
      · cases h
    · rename_i c' hp
      split at h
      · split at h
        · rw [Option.some.injEq] at h
          rw [← h] at ht
          exact hsame hp rfl (checkConsistency_revalidation ht)
        · rw [Option.some.injEq] at h
          rw [← h] at ht
          exact hsame hp rfl (Option.some.inj ht).symm
      · cases h
    · rename_i c' r hp
      split at h
      · split at h
        · rw [Option.some.injEq] at h
          rw [← h] at ht
          exact hsame hp rfl (checkConsistency_revalidation ht)
        · rw [Option.some.injEq] at h
          rw [← h] at ht
          exact hsame hp rfl (Option.some.inj ht).symm
      · cases h
    · cases h
  | unresolved interrupt memo leftovers =>
    simp only [sessionStep, Session.onUnresolved] at h
    split at h
    · rcases interrupted_cases h with rfl | ⟨_, rfl⟩
      · rw [resolveDeadline_revalidation] at ht
        cases ht
      · cases ht
    · exact (hinterrupt h).elim
    · exact (hinterrupt h).elim
    · cases h
  | delivered =>
    simp only [sessionStep, Session.onDelivered] at h
    split at h
    · rename_i c' hp
      rw [Option.some.injEq] at h
      rw [← h] at ht
      unfold Session.resolveDelivered at ht
      simp only at ht
      split at ht
      · cases ht
      · cases ht
    · rw [Option.some.injEq] at h
      rw [← h] at ht
      cases ht
    · rw [Option.some.injEq] at h
      rw [← h] at ht
      cases ht
    · rw [Option.some.injEq] at h
      rw [← h] at ht
      cases ht
    · rw [Option.some.injEq] at h
      rw [← h] at ht
      cases ht
    · rw [Option.some.injEq] at h
      rw [← h] at ht
      cases ht
    · cases h
  | undelivered interrupt =>
    simp only [sessionStep, Session.onUndelivered] at h
    split at h
    · rcases interrupted_cases h with rfl | ⟨_, rfl⟩
      · rw [resolveDeadline_revalidation] at ht
        cases ht
      · cases ht
    · rename_i c' hp
      rcases interrupted_cases h with rfl | ⟨_, rfl⟩
      · simp [Session.revalidation, hp, CallPhase.revalidation] at ht
      · cases ht
    · exact (hinterrupt h).elim
    · exact (hinterrupt h).elim
    · exact (hinterrupt h).elim
    · exact (hinterrupt h).elim
    · cases h
  | stray key value =>
    simp only [sessionStep] at h
    split at h
    · rw [Option.some.injEq] at h
      subst h
      left
      unfold Session.revalidation at ht ⊢
      cases hp : s.phase with
      | none => simp [hp] at ht
      | some phase => simp only [hp] at ht; exact ⟨ht, rfl⟩
    · cases h

/-- Every revalidation in progress began earlier in the run. -/
theorem inProgress_run {start s : Session K V} {es : List (SessionEvent K V)}
    (hfree : start.phase = none) (hrun : Run sessionStep start es s) :
    ∀ c, s.revalidation = some c → ∃ selected memo, InProgress start es s selected memo ∧
      ∀ k ∈ c.targets, Reached memo selected k := by
  refine hrun.history (P := fun es s => ∀ c, s.revalidation = some c → ∃ selected memo,
    InProgress start es s selected memo ∧ ∀ k ∈ c.targets, Reached memo selected k) ?_ ?_
  · intro c hc
    simp [Session.revalidation, hfree] at hc
  · intro es u e v hu _ hstep ih c hc
    rcases revalidation_step hstep hc with ⟨hold, hbusy⟩ | ⟨keys, strict, forceRefresh, p, q, rfl, hk⟩
    · obtain ⟨selected, memo, hprog, hreach⟩ := ih c hold
      exact ⟨selected, memo, hprog.snoc hbusy hstep, hreach⟩
    · exact ⟨_, _, ⟨es, [], keys, strict, forceRefresh, p, q, u, v, rfl, hu, rfl, rfl, hstep,
        .nil v⟩, hk⟩

/-! ## Whole runs -/

theorem callSound_run {s t : Session K V} {es : List (SessionEvent K V)}
    (hrun : Run sessionStep s es t) (hs : CallSound s) : CallSound t :=
  hrun.invariant CallSound (fun _ _ _ _ hs h => (session_step hs h).1) hs

theorem VisibleChange.keys {s t : Session K V} {e : SessionEvent K V} (h : VisibleChange s t e) :
    ∀ k ∈ s.resources.keys, k ∈ t.resources.keys := by
  intro k hk
  cases h with
  | extend h =>
    obtain ⟨v, hv⟩ := Dict.mem_keys.mp hk
    exact Dict.mem_keys_of_get? (h k v hv)
  | commit _ _ _ _ _ _ hkeys => exact hkeys k hk

theorem visible_run {s t : Session K V} {es : List (SessionEvent K V)}
    (hrun : Run sessionStep s es t) :
    CallSound s → ∀ k ∈ s.resources.keys, k ∈ t.resources.keys := by
  induction hrun with
  | nil s => exact fun _ k hk => hk
  | cons _ hstep _ ih =>
    intro hs k hk
    obtain ⟨hs', hchange⟩ := session_step hs hstep
    exact ih hs' k (hchange.keys k hk)

/-- The step of a run that changes the version of `k` commits a revalidation of a target `k`. -/
theorem version_change_step {s t : Session K V} {es : List (SessionEvent K V)} {k : K}
    (hrun : Run sessionStep s es t) :
    CallSound s → ∀ {v w : SnapshotValue K V}, s.resources.get? k = some v →
      t.resources.get? k = some w → v.version ≠ w.version →
      ∃ gs hs u u' c resources errors memo, es = gs ++ .delivered :: hs ∧
        Run sessionStep s gs u ∧ u.phase = some (.committing c resources errors memo) ∧
        sessionStep u .delivered = some u' ∧ Run sessionStep u' hs t ∧ k ∈ c.targets := by
  induction hrun with
  | nil s =>
    intro _ v w hv hw hne
    rw [hv, Option.some.injEq] at hw
    exact absurd (by rw [hw]) hne
  | @cons s t u e es _ hstep hrest ih =>
    intro hs v w hv hw hne
    obtain ⟨hs', hchange⟩ := session_step hs hstep
    have hlater : t.resources.get? k = some v → ∃ gs hs' u' u'' c resources errors memo,
        e :: es = gs ++ .delivered :: hs' ∧ Run sessionStep s gs u' ∧
        u'.phase = some (.committing c resources errors memo) ∧
        sessionStep u' .delivered = some u'' ∧ Run sessionStep u'' hs' u ∧ k ∈ c.targets := by
      intro hkept
      obtain ⟨gs, hs'', u', u'', c, resources, errors, memo, hes, hgs, hrest'⟩ :=
        ih hs' hkept hw hne
      exact ⟨e :: gs, hs'', u', u'', c, resources, errors, memo, by rw [hes]; rfl,
        .cons trivial hstep hgs, hrest'⟩
    cases hchange with
    | extend hextend => exact hlater (hextend k v hv)
    | commit c errors memo he hphase hother hkeys =>
      by_cases hk : k ∈ c.targets
      · subst he
        exact ⟨[], es, s, t, c, _, errors, memo, rfl, .nil s, hphase, hstep, hrest, hk⟩
      · exact hlater (by rw [hother k hk]; exact hv)

/-- From a new session on: visible keys stay visible, and a version changes only through a commit
of a revalidation whose selection reached the key when the call began. -/
theorem visible_values_pinned {hasDeadline : Bool} {es fs : List (SessionEvent K V)}
    {s t : Session K V} (hrun : Run sessionStep (Session.new hasDeadline) es s)
    (hrun' : Run sessionStep s fs t) :
    (∀ k ∈ s.resources.keys, k ∈ t.resources.keys) ∧
    ∀ k v w, s.resources.get? k = some v → t.resources.get? k = some w → v.version ≠ w.version →
      ∃ gs hs u u' c resources errors memo selected recorded,
        fs = gs ++ .delivered :: hs ∧ Run sessionStep s gs u ∧
        u.phase = some (.committing c resources errors memo) ∧
        sessionStep u .delivered = some u' ∧ Run sessionStep u' hs t ∧
        InProgress (Session.new hasDeadline) (es ++ gs) u selected recorded ∧
        Reached recorded selected k := by
  have hsound : CallSound s := callSound_run hrun trivial
  refine ⟨visible_run hrun' hsound, fun k v w hv hw hne => ?_⟩
  obtain ⟨gs, hs, u, u', c, resources, errors, memo, hfs, hgs, hphase, hstep, hrest, hk⟩ :=
    version_change_step hrun' hsound hv hw hne
  have hc : u.revalidation = some c := by
    rw [Session.revalidation, hphase]
    rfl
  obtain ⟨selected, recorded, hprog, hreach⟩ := inProgress_run rfl (hrun.append hgs) c hc
  exact ⟨gs, hs, u, u', c, resources, errors, memo, selected, recorded, hfs, hgs, hphase, hstep,
    hrest, hprog, hreach k hk⟩

end

theorem visible_values_pinned_example : ∃ s t : Session ℕ ℕ,
    (s.resources.get? 0).map (·.version) = some 0 ∧
    (t.resources.get? 0).map (·.version) = some 1 ∧
    (∀ k ∈ s.resources.keys, k ∈ t.resources.keys) ∧
    ∃ (es : List (SessionEvent ℕ ℕ)) (u : Session ℕ ℕ) (selected : List ℕ)
      (recorded : Dict ℕ (SnapshotValue ℕ ℕ)),
      InProgress (Session.new false) es u selected recorded ∧
      Reached recorded selected 0 := by
  have hend : ((exec sessionStep (Session.new false) abandonedResolve).bind fun s =>
      (exec sessionStep s
        [revalidateKeyZero, .resolved (exampleOutcome 0 1) [], .delivered]).map fun t =>
          ((s.resources.get? 0).map (·.version), (t.resources.get? 0).map (·.version))) =
      some (some 0, some 1) := by decide +kernel
  obtain ⟨s, hs, hend⟩ := Option.bind_eq_some_iff.mp hend
  obtain ⟨t, ht, hend⟩ := Option.map_eq_some_iff.mp hend
  rw [Prod.mk.injEq] at hend
  obtain ⟨v, hv, hv0⟩ := Option.map_eq_some_iff.mp hend.1
  obtain ⟨w, hw, hw1⟩ := Option.map_eq_some_iff.mp hend.2
  obtain ⟨hkeys, hchange⟩ := visible_values_pinned (exec_run hs) (exec_run ht)
  obtain ⟨gs, hs', u, _, _, _, _, _, selected, recorded, _, _, _, _, _, hprog, hreach⟩ :=
    hchange 0 v w hv hw (by rw [hv0, hw1]; decide)
  exact ⟨s, t, hend.1, hend.2, hkeys, _, u, selected, recorded, hprog, hreach⟩

end Coalestra
