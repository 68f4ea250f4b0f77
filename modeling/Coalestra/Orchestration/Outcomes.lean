import Coalestra.Orchestration.Pinning

/-! # Resolved or failed

A session stores a value or an error for a key, not both. Every path that installs a state keeps
this but one: where the deadline cuts the delivery of a `resolve` with `strict=False`, every key the
call had to resolve gets a deadline error, those that were resolved included. -/

namespace Coalestra
set_option autoImplicit false
set_option maxHeartbeats 250000

section
variable {K V : Type} [DecidableEq K]

/-- No key has both. -/
def Apart (resources : Dict K (SnapshotValue K V)) (errors : Dict K (Error K)) : Prop :=
  ∀ k ∈ resources.keys, k ∉ errors.keys

theorem Apart.filter {resources : Dict K (SnapshotValue K V)} {errors : Dict K (Error K)}
    (h : Apart resources errors) (p : K → Bool) : Apart resources (errors.filter p) :=
  fun k hk hmem => h k hk (Dict.mem_keys_filter.mp hmem).2

theorem Apart.update {resources values : Dict K (SnapshotValue K V)}
    {errors failed : Dict K (Error K)} (h : Apart resources errors) (h' : Apart values failed)
    (hvalues : ∀ k ∈ values.keys, k ∉ errors.keys)
    (hfailed : ∀ k ∈ failed.keys, k ∉ resources.keys) :
    Apart (resources.update values) (errors.update failed) := by
  intro k hk hmem
  rw [Dict.mem_keys_update] at hk hmem
  rcases hk with hk | hk
  · rcases hmem with hmem | hmem
    · exact h' k hk hmem
    · exact hvalues k hk hmem
  · rcases hmem with hmem | hmem
    · exact hfailed k hmem hk
    · exact h k hk hmem

/-- Deadline errors for keys without a value. -/
theorem Apart.deadline {resources : Dict K (SnapshotValue K V)} {errors : Dict K (Error K)}
    (h : Apart resources errors) {keys : List K} (hkeys : ∀ k ∈ keys, k ∉ resources.keys) :
    Apart resources (errors.update (deadlineResolutionErrors keys)) := by
  intro k hk hmem
  rcases Dict.mem_keys_update.mp hmem with hmem | hmem
  · rw [deadlineResolutionErrors, Dict.mem_keys, Dict.get?_comprehend] at hmem
    by_cases hin : k ∈ keys
    · exact hkeys k hin hk
    · simp [hin] at hmem
  · exact h k hk hmem

/-- What the call in progress would install. -/
def CallApart (s : Session K V) : Prop :=
  match s.phase with
  | some (.resolving c) => Apart c.candidateResources c.candidateErrors ∧
      ∀ k ∈ c.pending, k ∉ c.candidateResources.keys ∧ k ∉ c.candidateErrors.keys
  | some (.delivering c) => Apart c.candidateResources c.candidateErrors
  | some (.committing _ resources errors _) => Apart resources errors
  | _ => True

/-- The visible state and what the call in progress would install. -/
structure Session.Separate (s : Session K V) : Prop where
  visible : Apart s.resources s.errors
  call : CallApart s

/-- The deadline does not cut the delivery of a non-strict resolve that resolved one of the keys it
had to resolve. -/
def DeliveryKept (s : Session K V) (e : SessionEvent K V) : Prop :=
  ∀ c, e = .undelivered .deadline → s.phase = some (.delivering c) → c.strict = false →
    ∀ k ∈ c.pending, k ∉ c.candidateResources.keys

/-! ## One step -/

omit [DecidableEq K] in
theorem Apart.finish {s : Session K V} (h : Apart s.resources s.errors)
    (outcome : CallOutcome K V) : (s.finish outcome).Separate := ⟨h, trivial⟩

theorem beginResolve_separate {s : Session K V} (h : Apart s.resources s.errors) (keys : List K)
    (strict retryErrors : Bool) (request : Option (SnapshotRequest K V)) :
    (s.beginResolve keys strict retryErrors request).Separate := by
  unfold Session.beginResolve
  simp only
  split
  · exact h.finish _
  split
  · exact h.finish _
  have herrors : ∀ errors : Dict K (Error K),
      errors = (if retryErrors then s.errors.filter fun k => decide (k ∉ Dict.fromKeys keys)
        else s.errors) → Apart s.resources errors := by
    intro errors heq
    rw [heq]
    split
    · exact h.filter _
    · exact h
  generalize hgen : (if retryErrors then s.errors.filter fun k => decide (k ∉ Dict.fromKeys keys)
    else s.errors) = errors
  have hapart := herrors errors hgen.symm
  split
  · exact ⟨h, hapart⟩
  · refine ⟨h, hapart, fun k hk => ?_⟩
    simp only [List.mem_filter, decide_eq_true_eq] at hk
    exact hk.2

theorem beginRevalidate_separate {s : Session K V} (h : Apart s.resources s.errors) (keys : List K)
    (strict forceRefresh : Bool) (p : Option SnapshotConsistencyPolicy)
    (q : Option (Dict K (SnapshotValue K V) → Bool)) :
    (s.beginRevalidate keys strict forceRefresh p q).Separate := by
  unfold Session.beginRevalidate
  simp only
  split
  · exact h.finish _
  split
  · exact h.finish _
  split
  · exact h.finish _
  · exact ⟨h, trivial⟩

theorem propose_separate {s : Session K V} (h : Apart s.resources s.errors) (c : RevalidateCall K V)
    (values memo : Dict K (SnapshotValue K V)) : (s.propose c values memo).Separate := by
  unfold Session.propose
  split
  · exact h.finish _
  rename_i resources hreplace
  split
  · exact ⟨h, trivial⟩
  · refine ⟨h, fun k hk hmem => ?_⟩
    -- A revalidation shows no key that was not visible before.
    obtain ⟨v, hv⟩ := Dict.mem_keys.mp hk
    rw [(replaceTargets_spec hreplace).1 k] at hv
    have hvisible : k ∈ s.resources.keys := by
      by_cases ht : k ∈ c.targets ∧ k ∈ s.resources.keys
      · exact ht.2
      · rw [if_neg ht] at hv
        exact Dict.mem_keys_of_get? hv
    exact h k hvisible (Dict.mem_keys_filter.mp hmem).2

theorem checkConsistency_separate {s : Session K V} (h : Apart s.resources s.errors)
    (c : RevalidateCall K V) (values memo : Dict K (SnapshotValue K V))
    (attempted : List (K × String)) : (s.checkConsistency c values memo attempted).Separate := by
  unfold Session.checkConsistency
  split
  · exact propose_separate h c values memo
  split
  · unfold Session.retry
    split
    · exact ⟨h, trivial⟩
    split
    · exact ⟨h, trivial⟩
    · exact ⟨h, trivial⟩
  · exact ⟨h, trivial⟩

theorem resolveDeadline_separate {s : Session K V} (h : Apart s.resources s.errors)
    {c : ResolveCall K V} (hc : Apart c.candidateResources c.candidateErrors)
    (hkept : c.strict = false → ∀ k ∈ c.pending, k ∉ c.candidateResources.keys) :
    (s.resolveDeadline c).Separate := by
  unfold Session.resolveDeadline
  by_cases hstrict : c.strict = true
  · rw [if_pos hstrict]
    exact h.finish _
  · rw [if_neg hstrict]
    exact ⟨hc.deadline (hkept (by simpa using hstrict)), trivial⟩

theorem resolveDelivered_separate {s : Session K V} {c : ResolveCall K V}
    (hc : Apart c.candidateResources c.candidateErrors) : (s.resolveDelivered c).Separate := by
  unfold Session.resolveDelivered
  simp only
  split
  · exact ⟨hc, trivial⟩
  · exact ⟨hc, trivial⟩

omit [DecidableEq K] in
theorem interrupted_separate {s t u : Session K V} {enforce : Bool} {interrupt : Interrupt}
    (h : Apart s.resources s.errors) (ht : interrupt = .deadline → t.Separate)
    (hu : s.interrupted enforce interrupt t = some u) : u.Separate := by
  cases interrupt with
  | deadline =>
    simp only [Session.interrupted] at hu
    split at hu
    · rw [← Option.some.inj hu]
      exact ht rfl
    · cases hu
  | cancelled =>
    rw [← Option.some.inj hu]
    exact h.finish _
  | error =>
    rw [← Option.some.inj hu]
    exact h.finish _

theorem resolved_separate {s t : Session K V} {o : ResolveOutcome K V} {leftovers : List K}
    (hs : s.Separate) (h : s.onResolved o leftovers = some t) : t.Separate := by
  have hcall := hs.call
  unfold Session.onResolved at h
  unfold CallApart at hcall
  cases hphase : s.phase with
  | none => simp [hphase] at h
  | some phase =>
    rw [hphase] at h hcall
    cases phase with
    | resolving c =>
      simp only at h hcall
      split at h
      · rename_i hkeys
        rw [← Option.some.inj h]
        obtain ⟨hapart, hpending⟩ := hcall
        have hvalues : ∀ k ∈ o.values.keys, k ∈ c.pending := fun k hk =>
          hkeys ▸ (o.covers k).mpr (.inl hk)
        have hfailed : ∀ k ∈ o.errors.keys, k ∈ c.pending := fun k hk =>
          hkeys ▸ (o.covers k).mpr (.inr hk)
        exact ⟨hs.visible, hapart.update o.disjoint (fun k hk => (hpending k (hvalues k hk)).2)
          fun k hk => (hpending k (hfailed k hk)).1⟩
      · cases h
    | staging c =>
      simp only at h
      split at h
      · split at h
        · rw [← Option.some.inj h]
          exact checkConsistency_separate hs.visible c o.values o.memo []
        · rw [← Option.some.inj h]
          exact ⟨hs.visible, trivial⟩
      · cases h
    | retrying c r =>
      simp only at h
      split at h
      · split at h
        · rw [← Option.some.inj h]
          exact checkConsistency_separate hs.visible c _ o.memo r.attempted
        · rw [← Option.some.inj h]
          exact ⟨hs.visible, trivial⟩
      · cases h
    | _ => simp at h

theorem unresolved_separate {s t : Session K V} {interrupt : Interrupt}
    {memo : Dict K (SnapshotValue K V)} {leftovers : List K} (hs : s.Separate)
    (h : s.onUnresolved interrupt memo leftovers = some t) : t.Separate := by
  have hcall := hs.call
  unfold Session.onUnresolved at h
  unfold CallApart at hcall
  cases hphase : s.phase with
  | none => simp [hphase] at h
  | some phase =>
    rw [hphase] at h hcall
    cases phase with
    | resolving c =>
      simp only at h hcall
      obtain ⟨hapart, hpending⟩ := hcall
      rcases interrupted_cases h with rfl | ⟨outcome, rfl⟩
      · refine resolveDeadline_separate ?_ hapart fun _ k hk => (hpending k hk).1
        exact hs.visible
      · exact ⟨hs.visible, trivial⟩
    | staging c => exact interrupted_separate hs.visible (fun _ => hs.visible.finish _) h
    | retrying c r => exact interrupted_separate hs.visible (fun _ => hs.visible.finish _) h
    | _ => simp at h

theorem delivered_separate {s t : Session K V} (hs : s.Separate) (h : s.onDelivered = some t) :
    t.Separate := by
  have hcall := hs.call
  unfold Session.onDelivered at h
  unfold CallApart at hcall
  cases hphase : s.phase with
  | none => simp [hphase] at h
  | some phase =>
    rw [hphase] at h hcall
    cases phase with
    | delivering c =>
      rw [← Option.some.inj h]
      exact resolveDelivered_separate hcall
    | committing c resources errors memo =>
      rw [← Option.some.inj h]
      exact ⟨hcall, trivial⟩
    | lateDelivering c =>
      rw [← Option.some.inj h]
      exact hs.visible.finish _
    | viewing =>
      rw [← Option.some.inj h]
      exact hs.visible.finish _
    | reporting c errors =>
      rw [← Option.some.inj h]
      exact hs.visible.finish _
    | rejecting error c =>
      rw [← Option.some.inj h]
      exact hs.visible.finish _
    | _ => simp at h

theorem undelivered_separate {s t : Session K V} {interrupt : Interrupt} (hs : s.Separate)
    (hkept : DeliveryKept s (.undelivered interrupt)) (h : s.onUndelivered interrupt = some t) :
    t.Separate := by
  have hcall := hs.call
  unfold Session.onUndelivered at h
  unfold CallApart at hcall
  cases hphase : s.phase with
  | none => simp [hphase] at h
  | some phase =>
    rw [hphase] at h hcall
    cases phase with
    | delivering c =>
      refine interrupted_separate hs.visible (fun hdeadline => ?_) h
      exact resolveDeadline_separate hs.visible hcall fun hstrict =>
        hkept c (by rw [hdeadline]) hphase hstrict
    | lateDelivering c => exact interrupted_separate hs.visible (fun _ => hs) h
    | viewing => exact interrupted_separate hs.visible (fun _ => hs.visible.finish _) h
    | reporting c errors => exact interrupted_separate hs.visible (fun _ => hs.visible.finish _) h
    | rejecting error c => exact interrupted_separate hs.visible (fun _ => hs.visible.finish _) h
    | committing c _ _ _ => exact interrupted_separate hs.visible (fun _ => hs.visible.finish _) h
    | _ => simp at h

theorem separate_step {s t : Session K V} {e : SessionEvent K V} (hkept : DeliveryKept s e)
    (hs : s.Separate) (h : sessionStep s e = some t) : t.Separate := by
  have hlocked : ∀ {u : Session K V}, s.locked u = some t → u.Separate → t.Separate := by
    intro u hu hsep
    rw [Session.locked] at hu
    split at hu
    · rw [← Option.some.inj hu]
      exact hsep
    · cases hu
  cases e with
  | resolve keys strict retryErrors =>
    exact hlocked h (beginResolve_separate hs.visible keys strict retryErrors none)
  | resolveRequest request retryErrors =>
    exact hlocked h (beginResolve_separate hs.visible _ false retryErrors (some request))
  | revalidate keys strict forceRefresh p q =>
    exact hlocked h (beginRevalidate_separate hs.visible keys strict forceRefresh p q)
  | snapshotAsync => exact hlocked h ⟨hs.visible, trivial⟩
  | snapshot =>
    rw [← Option.some.inj h]
    exact hs
  | close => exact hlocked h ⟨hs.visible, hs.call⟩
  | resolved o leftovers => exact resolved_separate hs h
  | unresolved interrupt memo leftovers => exact unresolved_separate hs h
  | delivered => exact delivered_separate hs h
  | undelivered interrupt => exact undelivered_separate hs hkept h
  | stray key value =>
    simp only [sessionStep] at h
    split at h
    · rw [← Option.some.inj h]
      exact ⟨hs.visible, hs.call⟩
    · cases h

/-- The step that the condition excludes stores both for every key it concerns. -/
theorem cut_delivery_overlaps {s t : Session K V} {e : SessionEvent K V}
    (hcut : ¬ DeliveryKept s e) (h : sessionStep s e = some t) : ¬ Apart t.resources t.errors := by
  unfold DeliveryKept at hcut
  push Not at hcut
  obtain ⟨c, rfl, hphase, hstrict, k, hk, hresolved⟩ := hcut
  simp only [sessionStep, Session.onUndelivered, hphase, Session.interrupted] at h
  split at h
  · have ht := Option.some.inj h
    have hres : t.resources = c.candidateResources := by
      rw [← ht]
      simp [Session.resolveDeadline, hstrict]
    have herr : t.errors = c.candidateErrors.update (deadlineResolutionErrors c.pending) := by
      rw [← ht]
      simp [Session.resolveDeadline, hstrict]
    intro hapart
    refine hapart k (hres ▸ hresolved) ?_
    rw [herr, Dict.mem_keys_update]
    left
    rw [deadlineResolutionErrors, Dict.mem_keys, Dict.get?_comprehend, if_pos hk]
    exact ⟨_, rfl⟩
  · cases h

/-! ## Whole runs -/

/-- In every run whose steps keep their deliveries no key is both resolved and failed; and the first
step that does not keeps a key as both. -/
theorem resolved_or_failed {hasDeadline : Bool} {es : List (SessionEvent K V)} {s : Session K V}
    (hrun : RunOf sessionStep DeliveryKept (Session.new hasDeadline) es s) :
    (∀ k ∈ s.resources.keys, k ∉ s.errors.keys) ∧
    ∀ e t, sessionStep s e = some t →
      ((∀ k ∈ t.resources.keys, k ∉ t.errors.keys) ↔ DeliveryKept s e) := by
  have hnew : (Session.new hasDeadline : Session K V).Separate :=
    ⟨fun k hk => by simp [Session.new] at hk, trivial⟩
  have hsep := hrun.invariant Session.Separate (fun _ _ _ hok hI h => separate_step hok hI h) hnew
  refine ⟨hsep.visible, fun e t hstep => ⟨fun hapart => ?_, fun hkept => ?_⟩⟩
  · by_contra hcut
    exact cut_delivery_overlaps hcut hstep hapart
  · exact (separate_step hkept hsep hstep).visible

end

/-- The copy of the snapshot outlasts the deadline after key 0 is resolved. -/
def cutDelivery : List (SessionEvent ℕ ℕ) :=
  [.resolve [0] false false, .resolved (exampleOutcome 0 0) [], .undelivered .deadline, .delivered]

/-- Key 1 is resolved under the deadline, then key 0 fails on it. -/
theorem resolved_or_failed_late : ∃ s : Session ℕ ℕ,
    s.resources.keys = [1] ∧ s.errors.keys = [0] ∧ ∀ k ∈ s.resources.keys, k ∉ s.errors.keys := by
  have hend : (exec sessionStep (Session.new true)
      [.resolve [1] false false, .resolved (exampleOutcome 1 0) [], .delivered,
        .resolve [0] false false, .unresolved .deadline .empty [], .delivered]).map
      (fun s => (s.resources.keys, s.errors.keys)) = some ([1], [0]) := by decide +kernel
  obtain ⟨s, hs, hkeys⟩ := Option.map_eq_some_iff.mp hend
  rw [Prod.mk.injEq] at hkeys
  have hlabels := RunOf.of_labels (p := fun e => ∀ i, e ≠ .undelivered i) (exec_run hs) (by simp)
  have hrun : RunOf sessionStep DeliveryKept (Session.new true) _ s :=
    hlabels.mono fun _ e hne c he => absurd he (hne _)
  exact ⟨s, hkeys.1, hkeys.2, (resolved_or_failed hrun).1⟩

theorem cut_delivery_counterexample :
    ¬ ∀ (es : List (SessionEvent ℕ ℕ)) (s : Session ℕ ℕ),
      Run sessionStep (Session.new true) es s → ∀ k ∈ s.resources.keys, k ∉ s.errors.keys := by
  intro h
  have hend : (exec sessionStep (Session.new true) cutDelivery).map
      (fun s => (s.resources.keys, s.errors.keys)) = some ([0], [0]) := by decide +kernel
  obtain ⟨s, hs, hkeys⟩ := Option.map_eq_some_iff.mp hend
  rw [Prod.mk.injEq] at hkeys
  exact h _ s (exec_run hs) 0 (by rw [hkeys.1]; simp) (by rw [hkeys.2]; simp)

end Coalestra
