import Coalestra.Orchestration.SourceExecutor

/-! # One outcome for each admission

Which attempts report exactly one outcome for each circuit that admitted them, whatever is raised
where, and what that means for the probe of a half-open circuit. -/

namespace Coalestra
set_option autoImplicit false
set_option maxHeartbeats 250000

/-- The classes for which a ladder records nothing. -/
def ExecutorKind.Silent : ExecutorKind → Raised → Prop
  | .single, error => error = .circuitOpen
  | .batch, _ => False
  | .derived, error =>
    error = .circuitOpen ∨ error = .dependencyCycle ∨ error = .dependencyResolution

theorem outcome_eq_none {kind : ExecutorKind} {error : Raised} :
    kind.outcome error = none ↔ kind.Silent error := by
  cases kind <;> cases error <;>
    simp [ExecutorKind.outcome, ExecutorKind.Silent, fetchOneOutcome, batchOutcome, deriveOneOutcome]

/-- The probe of a circuit is taken. -/
def Circuits.Flag (b : Circuits) (identity : CircuitIdentity) : Prop :=
  (b.circuit identity).halfOpenProbeActive = true

theorem Circuits.flag_record {b : Circuits} {identity other : CircuitIdentity}
    {policy : CircuitBreakerPolicy} {now : ℚ} {outcome : CircuitOutcome}
    (h : (b.record identity policy now outcome).Flag other) :
    b.Flag other ∧ (policy.enabled = true → other ≠ identity) := by
  by_cases henabled : policy.enabled = true
  · by_cases hother : other = identity
    · rw [Circuits.Flag, hother, Circuits.record_self henabled, Circuits.recorded_releases] at h
      cases h
    · rw [Circuits.Flag, Circuits.record_ne hother] at h
      exact ⟨h, fun _ => hother⟩
  · unfold Circuits.record at h
    rw [if_neg henabled] at h
    exact ⟨h, fun h' => absurd h' henabled⟩

theorem Circuits.flag_beforeCall (b : Circuits) (identity : CircuitIdentity)
    (policy : CircuitBreakerPolicy) (now : ℚ) (other : CircuitIdentity)
    (h : (b.beforeCall identity policy now).1.Flag other) :
    b.Flag other ∨
      (policy.enabled = true ∧ (b.beforeCall identity policy now).2 = true ∧ other = identity) := by
  by_cases henabled : policy.enabled = true
  · by_cases hother : other = identity
    · subst hother
      rw [Circuits.Flag, Circuits.beforeCall_enabled henabled, Circuits.circuit_set_self] at h
      rw [Circuits.Flag, Circuits.beforeCall_enabled henabled]
      generalize b.circuit other = c at h ⊢
      obtain ⟨state, failures, openedAt, active⟩ := c
      cases active with
      | true => exact .inl rfl
      | false =>
        right
        refine ⟨henabled, ?_, rfl⟩
        cases state with
        | closed => cases h
        | opened =>
          simp only [Circuit.beforeCall] at h ⊢
          split at h
          · cases h
          · rename_i hwindow
            rw [if_neg hwindow]
            rfl
        | halfOpen => rfl
    · rw [Circuits.Flag, Circuits.beforeCall_ne hother] at h
      exact .inl h
  · unfold Circuits.beforeCall at h
    rw [if_neg henabled] at h
    exact .inl h

namespace Executor

theorem flag_recordAll {policy : CircuitBreakerPolicy} {now : ℚ} {outcome : CircuitOutcome}
    {other : CircuitIdentity} : ∀ {reported : List CircuitIdentity} {b : Circuits},
    (recordAll policy now outcome reported b).Flag other →
    b.Flag other ∧ (policy.enabled = true → other ∉ reported)
  | [], b, h => ⟨h, fun _ => List.not_mem_nil⟩
  | identity :: rest, b, h => by
      have h' : (recordAll policy now outcome rest (b.record identity policy now outcome)).Flag
          other := h
      obtain ⟨hrest, hnot⟩ := flag_recordAll h'
      obtain ⟨hflag, hne⟩ := Circuits.flag_record hrest
      refine ⟨hflag, fun henabled hmem => ?_⟩
      rcases List.mem_cons.mp hmem with heq | hmem
      · exact hne henabled heq
      · exact hnot henabled hmem

end Executor

/-! ## One attempt -/

namespace SourceTask
variable {K : Type} [KeyText K]

/-- Exactly one outcome for each admission of an attempt that ended, and none before. -/
structure Paired (task : SourceTask K) : Prop where
  nodup : (task.identitiesOf task.admitted).Nodup
  waiting : task.phase ≠ .finished → task.recorded = []
  ended : task.phase = .finished → task.recorded.Perm (task.identitiesOf task.admitted)

/-- The attempt answers for the probe of `identity`. -/
def Owns (task : SourceTask K) (identity : CircuitIdentity) : Prop :=
  task.phase ≠ .finished ∧ task.policy.enabled = true ∧
    identity ∈ task.identitiesOf task.admitted

/-- How an attempt stands while its outcomes are paired. -/
structure Sound (task : SourceTask K) : Prop where
  nodup : (task.identitiesOf task.groups).Nodup
  admitted : task.admitted.Sublist task.groups
  grouped : task.kind ≠ .batch → ∃ group, task.groups = [group]
  phase : match task.phase with
    | .resolving => task.kind = .derived ∧ task.admitted = [] ∧ task.recorded = []
    | .isolating => task.kind = .derived ∧ task.admitted = [] ∧ task.recorded = []
    | .calling _ => task.admitted ≠ [] ∧ task.reportedGroups = task.admitted ∧ task.recorded = []
    | .finished => task.recorded = task.identitiesOf task.admitted

theorem Sound.paired {task : SourceTask K} (h : task.Sound) : task.Paired := by
  have hphase := h.phase
  refine ⟨h.nodup.sublist (h.admitted.map _), fun hwaiting => ?_, fun hended => ?_⟩
  · split at hphase
    · exact hphase.2.2
    · exact hphase.2.2
    · exact hphase.2.2
    · exact absurd ‹_› hwaiting
  · rw [hended] at hphase
    rw [hphase]

theorem identitiesOf_eq_nil {task : SourceTask K} {groups : List (K × List K)} :
    task.identitiesOf groups = [] ↔ groups = [] := by
  rw [identitiesOf, Executor.identities, List.map_eq_nil_iff]

/-- After a step of an attempt no probe is taken that the attempt gave up. -/
def Answers (b : Circuits) (task : SourceTask K) (r : Circuits × SourceTask K) : Prop :=
  ∀ identity, r.1.Flag identity → r.2.Owns identity ∨ (b.Flag identity ∧ ¬ task.Owns identity)

/-- An attempt that waits for its dependencies or for their copies. -/
def Preparing (task : SourceTask K) : Prop :=
  task.kind = .derived ∧ task.admitted = [] ∧ task.recorded = []

/-- An attempt that waits for its source. -/
def Calling (task : SourceTask K) : Prop :=
  task.admitted ≠ [] ∧ task.reportedGroups = task.admitted ∧ task.recorded = []

section
variable {task : SourceTask K} {now : ℚ} {error : Raised} {b : Circuits}

theorem handle_silent (h : task.kind.Silent error) :
    task.handle now error b = (b, { task with phase := .finished }) := by
  rw [handle, outcome_eq_none.mpr h]

theorem handle_reported (now : ℚ) (b : Circuits) (h : ¬ task.kind.Silent error) : ∃ outcome,
    task.handle now error b =
      (Executor.recordAll task.policy now outcome (task.identitiesOf task.reportedGroups) b,
        { task with
          phase := .finished
          recorded := task.recorded ++ task.identitiesOf task.reportedGroups }) := by
  rw [← outcome_eq_none] at h
  obtain ⟨outcome, houtcome⟩ := Option.ne_none_iff_exists'.mp h
  exact ⟨outcome, by rw [handle, houtcome]⟩

/-- A ladder that ends a call has to record something. -/
theorem Calling.handle (h : task.Calling) :
    (task.handle now error b).2.Paired → ¬ task.kind.Silent error := by
  intro hpaired hsilent
  rw [handle_silent hsilent] at hpaired
  have hended := hpaired.ended rfl
  rw [h.2.2, List.nil_perm] at hended
  exact h.1 (identitiesOf_eq_nil.mp hended)

theorem Calling.handle_sound (now : ℚ) (b : Circuits) (h : task.Calling) (hs : task.Sound)
    (hreported : ¬ task.kind.Silent error) : (task.handle now error b).2.Sound ∧
      Answers b task (task.handle now error b) := by
  obtain ⟨outcome, hhandle⟩ := handle_reported now b hreported
  rw [hhandle, h.2.1, h.2.2, List.nil_append]
  refine ⟨⟨hs.nodup, hs.admitted, hs.grouped, rfl⟩, fun identity hflag => ?_⟩
  obtain ⟨hbefore, hnot⟩ := Executor.flag_recordAll hflag
  exact .inr ⟨hbefore, fun howns => hnot howns.2.1 howns.2.2⟩

/-- A ladder that ends a preparation must not record anything. -/
theorem Preparing.handle (h : task.Preparing) (hs : task.Sound) :
    (task.handle now error b).2.Paired → task.kind.Silent error := by
  intro hpaired
  by_contra hreported
  obtain ⟨outcome, hhandle⟩ := handle_reported now b hreported
  rw [hhandle] at hpaired
  have hended := hpaired.ended rfl
  have hgroups : task.reportedGroups = task.groups := by rw [reportedGroups, h.1]
  rw [hgroups, h.2.2, h.2.1, List.nil_append] at hended
  obtain ⟨group, hgroup⟩ := hs.grouped (by rw [h.1]; decide)
  have hnil := identitiesOf_eq_nil.mp (List.perm_nil.mp hended)
  rw [hgroup] at hnil
  cases hnil

theorem Preparing.handle_sound (now : ℚ) (b : Circuits) (h : task.Preparing) (hs : task.Sound)
    (hsilent : task.kind.Silent error) : (task.handle now error b).2.Sound ∧
      Answers b task (task.handle now error b) := by
  rw [handle_silent hsilent]
  refine ⟨⟨hs.nodup, hs.admitted, hs.grouped, ?_⟩, fun identity hflag => ?_⟩
  · rw [h.2.1, h.2.2]
    rfl
  · refine .inr ⟨hflag, fun howns => ?_⟩
    have hmem := howns.2.2
    rw [h.2.1] at hmem
    cases hmem

/-- `before_call` of an attempt with one key. -/
theorem enter_sound (task : SourceTask K) (now : ℚ) (b : Circuits) {group : K × List K}
    (hkind : task.kind ≠ .batch) (hgroups : task.groups = [group])
    (hadmitted : task.admitted = []) (hrecorded : task.recorded = []) :
    (task.enter now b).2.Sound ∧ Answers b task (task.enter now b) := by
  have hnodup : (task.identitiesOf [group]).Nodup := List.nodup_singleton _
  have hnone : ∀ identity, ¬ task.Owns identity := by
    intro identity howns
    have hmem := howns.2.2
    rw [hadmitted] at hmem
    cases hmem
  have hflag := Circuits.flag_beforeCall b (identityFor task.source group.1 task.policy.scope)
    task.policy now
  rw [enter, hgroups]
  simp only
  generalize b.beforeCall (identityFor task.source group.1 task.policy.scope) task.policy now = r
    at hflag ⊢
  obtain ⟨b', admitted⟩ := r
  cases admitted with
  | true =>
    simp only [if_true]
    refine ⟨⟨hnodup, List.Sublist.refl _, fun _ => ⟨group, rfl⟩, List.cons_ne_nil _ _, ?_,
      hrecorded⟩, fun identity h => ?_⟩
    · rw [reportedGroups]
      cases task.kind <;> rfl
    · rcases hflag identity h with h | ⟨henabled, _, rfl⟩
      · exact .inr ⟨h, hnone identity⟩
      · exact .inl ⟨by simp, henabled, List.mem_singleton_self _⟩
  | false =>
    have hsilent : task.kind.Silent .circuitOpen := by
      cases hk : task.kind with
      | single => rfl
      | batch => exact absurd hk hkind
      | derived => exact .inl rfl
    simp only [Bool.false_eq_true, if_false, handle_silent hsilent]
    refine ⟨⟨?_, ?_, fun _ => ⟨group, hgroups⟩, ?_⟩, fun identity h => ?_⟩
    · change (task.identitiesOf task.groups).Nodup
      rw [hgroups]
      exact hnodup
    · change List.Sublist task.admitted task.groups
      rw [hadmitted]
      exact List.nil_sublist _
    · change task.recorded = task.identitiesOf task.admitted
      rw [hadmitted, hrecorded]
      rfl
    · rcases hflag identity h with h | ⟨_, hadmits, _⟩
      · exact .inr ⟨h, hnone identity⟩
      · cases hadmits

end

end SourceTask

/-! ## Batches -/

namespace Executor
variable {K : Type} [KeyText K]

/-- The groups of a batch stand for different circuits. -/
theorem circuitGroups_nodup (source : String) (scope : CircuitScope) (keys : List K) :
    (identities source scope (circuitGroups source scope keys)).Nodup := by
  have hgrouped : ∀ (keys : List K) (grouped : Dict CircuitIdentity (List K)),
      (∀ identity items, (identity, items) ∈ grouped.entries →
        ∀ key ∈ items, identityFor source key scope = identity) →
      ∀ identity items, (identity, items) ∈ (keys.foldl (fun grouped key =>
        grouped.set (identityFor source key scope)
          ((grouped.get? (identityFor source key scope)).getD [] ++ [key])) grouped).entries →
        ∀ key ∈ items, identityFor source key scope = identity := by
    intro keys
    induction keys with
    | nil => exact fun _ h => h
    | cons first rest ih =>
      intro grouped h
      refine ih _ fun identity items hmem key hkey => ?_
      rcases Dict.mem_entries_set hmem with ⟨rfl, rfl⟩ | hmem
      · rcases List.mem_append.mp hkey with hkey | hkey
        · cases hold : grouped.get? (identityFor source first scope) with
          | none =>
            rw [hold] at hkey
            cases hkey
          | some old =>
            rw [hold, Option.getD_some] at hkey
            exact h _ old (Dict.mem_entries.mpr hold) key hkey
        · rw [List.mem_singleton.mp hkey]
      · exact h identity items hmem key hkey
  have hall := hgrouped keys .empty (by simp)
  unfold circuitGroups
  generalize keys.foldl (fun grouped key =>
    grouped.set (identityFor source key scope)
      ((grouped.get? (identityFor source key scope)).getD [] ++ [key])) Dict.empty = grouped at hall
  obtain ⟨entries, hnodup⟩ := grouped
  simp only [Dict.values] at hall ⊢
  induction entries with
  | nil => exact List.nodup_nil
  | cons entry rest ih =>
    obtain ⟨identity, items⟩ := entry
    rw [List.map_cons, List.nodup_cons] at hnodup
    have hrest := ih hnodup.2 fun identity items hmem => hall identity items
      (List.mem_cons_of_mem _ hmem)
    cases items with
    | nil => exact hrest
    | cons key items =>
      have hidentity := hall identity (key :: items) List.mem_cons_self key List.mem_cons_self
      rw [List.map_cons, List.filterMap_cons]
      simp only [List.head?_cons, Option.map_some, identities, List.map_cons, List.nodup_cons]
      refine ⟨fun hmem => hnodup.1 ?_, hrest⟩
      obtain ⟨group, hgroup, heq⟩ := List.mem_map.mp hmem
      obtain ⟨others, hothers, hhead⟩ := List.mem_filterMap.mp hgroup
      obtain ⟨⟨other, items'⟩, hother, rfl⟩ := List.mem_map.mp hothers
      obtain ⟨first, hfirst, rfl⟩ := Option.map_eq_some_iff.mp hhead
      have hsame := hall other items' (List.mem_cons_of_mem _ hother) first
        (List.mem_of_mem_head? hfirst)
      rw [hidentity, hsame] at heq
      exact List.mem_map.mpr ⟨(other, items'), hother, heq⟩

/-- The active groups of a batch, and the probes it takes. -/
theorem admitGroups_spec (source : String) (policy : CircuitBreakerPolicy) (now : ℚ) :
    ∀ (groups : List (K × List K)) (b : Circuits),
      (admitGroups source policy now groups b).2.Sublist groups ∧
      ∀ identity, (admitGroups source policy now groups b).1.Flag identity → b.Flag identity ∨
        (policy.enabled = true ∧
          identity ∈ identities source policy.scope (admitGroups source policy now groups b).2)
  | [], b => ⟨List.Sublist.refl _, fun identity h => .inl h⟩
  | group :: rest, b => by
      have hbefore := Circuits.flag_beforeCall b (identityFor source group.1 policy.scope) policy now
      rw [admitGroups]
      simp only
      generalize b.beforeCall (identityFor source group.1 policy.scope) policy now = r at hbefore ⊢
      obtain ⟨b', admitted⟩ := r
      obtain ⟨hsub, hflags⟩ := admitGroups_spec source policy now rest b'
      cases admitted with
      | true =>
        refine ⟨hsub.cons_cons _, fun identity h => ?_⟩
        rcases hflags identity h with h | ⟨henabled, hmem⟩
        · rcases hbefore identity h with h | ⟨henabled, _, rfl⟩
          · exact .inl h
          · exact .inr ⟨henabled, List.mem_cons_self⟩
        · exact .inr ⟨henabled, List.mem_cons_of_mem _ hmem⟩
      | false =>
        refine ⟨hsub.cons _, fun identity h => ?_⟩
        rcases hflags identity h with h | hmem
        · rcases hbefore identity h with h | ⟨_, hadmits, _⟩
          · exact .inl h
          · cases hadmits
        · exact .inr hmem

variable [DecidableEq K]

/-- What the loop over the active groups recorded: everything, or what comes before the group whose
freshness check raised. -/
theorem recordGroups_spec (source : String) (policy : CircuitBreakerPolicy) (now : ℚ)
    (returned : List K) (fresh : K → Except Raised Bool) :
    ∀ (groups : List (K × List K)) (b : Circuits),
      let r := recordGroups source policy now returned fresh groups b
      (∀ identity, r.1.Flag identity → b.Flag identity ∧
        (policy.enabled = true → identity ∉ r.2.1)) ∧
      ((r.2.2 = .ok () ∧ r.2.1 = identities source policy.scope groups ∧
          ∀ group ∈ groups, ∀ error, hasFreshValue returned fresh group.2 ≠ .error error) ∨
        ∃ error pre group post, r.2.2 = .error error ∧ groups = pre ++ group :: post ∧
          hasFreshValue returned fresh group.2 = .error error ∧
          r.2.1 = identities source policy.scope pre ∧
          ∀ group ∈ pre, ∀ error, hasFreshValue returned fresh group.2 ≠ .error error)
  | [], b => by
      refine ⟨fun identity h => ⟨h, fun _ => List.not_mem_nil⟩, .inl ⟨rfl, rfl, ?_⟩⟩
      intro group hgroup
      cases hgroup
  | group :: rest, b => by
      intro r
      cases hfresh : hasFreshValue returned fresh group.2 with
      | error error =>
        have hr : r = (b, [], .error error) := by
          simp only [r, recordGroups, hfresh]
        rw [hr]
        refine ⟨fun identity h => ⟨h, fun _ => List.not_mem_nil⟩,
          .inr ⟨error, [], group, rest, rfl, rfl, hfresh, rfl, ?_⟩⟩
        intro group hgroup
        cases hgroup
      | ok isFresh =>
        let r' := recordGroups source policy now returned fresh rest
          (b.record (identityFor source group.1 policy.scope) policy now (freshnessOutcome isFresh))
        have hr : r = (r'.1, identityFor source group.1 policy.scope :: r'.2.1, r'.2.2) := by
          simp only [r, r', recordGroups, hfresh]
        obtain ⟨hflags, hended⟩ := recordGroups_spec source policy now returned fresh rest
          (b.record (identityFor source group.1 policy.scope) policy now (freshnessOutcome isFresh))
        rw [hr]
        refine ⟨fun identity h => ?_, ?_⟩
        · obtain ⟨hmid, hnot⟩ := hflags identity h
          obtain ⟨hb, hne⟩ := Circuits.flag_record hmid
          refine ⟨hb, fun henabled hmem => ?_⟩
          rcases List.mem_cons.mp hmem with heq | hmem
          · exact hne henabled heq
          · exact hnot henabled hmem
        · have hhead : ∀ error, hasFreshValue returned fresh group.2 ≠ .error error := by
            intro error h
            rw [hfresh] at h
            cases h
          rcases hended with ⟨hok, hrecorded, hrest⟩ |
            ⟨error, pre, culprit, post, herr, hsplit, hculprit, hrecorded, hpre⟩
          · refine .inl ⟨hok, congrArg _ hrecorded, fun other hother => ?_⟩
            rcases List.mem_cons.mp hother with rfl | hother
            · exact hhead
            · exact hrest other hother
          · refine .inr ⟨error, group :: pre, culprit, post, herr, congrArg _ hsplit, hculprit,
              congrArg _ hrecorded, fun other hother => ?_⟩
            rcases List.mem_cons.mp hother with rfl | hother
            · exact hhead
            · exact hpre other hother

end Executor

/-! ## Steps -/

namespace SourceTask
variable {K : Type} [DecidableEq K] [KeyText K]

/-- A call of a derived source fails before its admission only with a class that its ladder does not
record, and afterwards no call fails with such a class; cancellations come after the admission; and
the freshness checks of a batch raise at its first group or not at all. -/
def Owned (task : SourceTask K) : ExecutorEvent K → Prop
  | .resolved _ outcome _ => ∀ error, outcome = .error error → ExecutorKind.derived.Silent error
  | .isolated _ outcome _ => ∀ error, outcome = .error error → ExecutorKind.derived.Silent error
  | .operation _ (.raised error) _ _ => ¬ task.kind.Silent error
  | .operation _ (.payload fresh) _ _ => ∀ error, fresh = .error error → ¬ task.kind.Silent error
  | .operation _ (.payloads returned fresh) _ _ =>
    ∀ first rest, task.admitted = first :: rest → ∀ group ∈ rest, ∀ error,
      Executor.hasFreshValue returned fresh group.2 = .error error →
      ∃ error', Executor.hasFreshValue returned fresh first.2 = .error error'
  | .cancel _ _ => ∃ attempt, task.phase = .calling attempt
  | _ => True

section
variable {task : SourceTask K} {now : ℚ} {b : Circuits}

/-- The end of a batch. -/
theorem Calling.onPayloads (now : ℚ) (b : Circuits) {returned : List K}
    {fresh : K → Except Raised Bool} (h : task.Calling) (hs : task.Sound) (hkind : task.kind = .batch) :
    ((task.onPayloads now returned fresh b).2.Paired →
      ∀ i giveUp, task.Owned (.operation i (.payloads returned fresh) giveUp now)) ∧
    ((∀ i giveUp, task.Owned (.operation i (.payloads returned fresh) giveUp now)) →
      (task.onPayloads now returned fresh b).2.Sound ∧
        Answers b task (task.onPayloads now returned fresh b)) := by
  obtain ⟨hflags, hended⟩ := Executor.recordGroups_spec task.source task.policy now returned
    fresh task.admitted b
  unfold SourceTask.onPayloads
  generalize Executor.recordGroups task.source task.policy now returned fresh task.admitted b = r
    at hflags hended ⊢
  obtain ⟨b', recorded, ended⟩ := r
  simp only at hflags hended ⊢
  have hnot : ∀ error, ¬ task.kind.Silent error := by
    rw [hkind]
    exact fun error => id
  rcases hended with ⟨rfl, rfl, hfresh⟩ | ⟨error, pre, culprit, post, rfl, hsplit, hculprit, rfl, hpre⟩
  · refine ⟨fun _ i giveUp first rest hadmitted group hgroup error herror => ?_, fun _ => ⟨?_, ?_⟩⟩
    · exact absurd herror (hfresh group (hadmitted ▸ List.mem_cons_of_mem _ hgroup) error)
    · refine ⟨hs.nodup, hs.admitted, hs.grouped, ?_⟩
      rw [h.2.2]
      rfl
    · intro identity hflag
      obtain ⟨hbefore, hgone⟩ := hflags identity hflag
      exact .inr ⟨hbefore, fun howns => hgone howns.2.1 howns.2.2⟩
  · cases pre with
    | nil =>
      rw [show task.recorded ++ Executor.identities task.source task.policy.scope ([] : List (K × List K))
        = task.recorded from List.append_nil _]
      refine ⟨fun _ i giveUp first rest hadmitted group hgroup _ _ => ?_, fun _ => ?_⟩
      · rw [hsplit, List.nil_append, List.cons.injEq] at hadmitted
        exact ⟨error, hadmitted.1 ▸ hculprit⟩
      · obtain ⟨hsound, hanswers⟩ :=
          h.handle_sound now b' hs (hnot error)
        refine ⟨hsound, fun identity hflag => ?_⟩
        rcases hanswers identity hflag with howns | ⟨hb', hnone⟩
        · exact .inl howns
        · exact .inr ⟨(hflags identity hb').1, hnone⟩
    | cons first pre =>
      have hfirst := hpre first List.mem_cons_self
      refine ⟨fun hpaired => ?_, fun howned => ?_⟩
      · exfalso
        generalize hrecorded : task.recorded ++
          Executor.identities task.source task.policy.scope (first :: pre) = recorded at hpaired
        obtain ⟨outcome, hhandle⟩ := handle_reported now b'
          (show ¬ ({ task with recorded := recorded } : SourceTask K).kind.Silent error from
            hnot error)
        simp only [hhandle] at hpaired
        have hlength := (hpaired.ended rfl).length_eq
        have hreported : reportedGroups { task with recorded := recorded } = task.admitted := h.2.1
        rw [hreported] at hlength
        simp only [← hrecorded] at hlength
        simp only [identitiesOf, Executor.identities, List.length_append, List.length_map,
          List.length_cons] at hlength
        omega
      · obtain ⟨error', herror⟩ := howned 0 false first (pre ++ culprit :: post)
          (by rw [hsplit, List.cons_append]) culprit (by simp) error hculprit
        exact absurd herror (hfirst error')

/-- A step of a waiting attempt keeps its outcomes paired exactly when it is owned. -/
theorem Sound.onTask {e : ExecutorEvent K} {r : Circuits × SourceTask K} (hs : task.Sound)
    (h : Executor.onTask task b e = some r) :
    (r.2.Paired → task.Owned e) ∧ (task.Owned e → r.2.Sound ∧ Answers b task r) := by
  have hphase := hs.phase
  have hkeep : ∀ {phase : SourcePhase}, task.phase ≠ .finished → phase ≠ .finished →
      Answers b task (b, { task with phase := phase }) := by
    intro phase hwaiting hphase identity hflag
    by_cases howns : task.Owns identity
    · exact .inl ⟨hphase, howns.2⟩
    · exact .inr ⟨hflag, howns⟩
  cases e with
  | fetchOne => cases h
  | fetchMany => cases h
  | deriveOne => cases h
  | resolved i outcome now =>
    simp only [Executor.onTask] at h
    split at h
    · rename_i hresolving
      rw [hresolving] at hphase
      have hprep : task.Preparing := hphase
      split at h
      · rename_i error
        rw [← Option.some.inj h]
        refine ⟨fun hpaired error' herror => ?_, fun howned => ?_⟩
        · have hsilent := hprep.handle hs hpaired
          rw [hprep.1] at hsilent
          cases herror
          exact hsilent
        · refine hprep.handle_sound now b hs ?_
          rw [hprep.1]
          exact howned error rfl
      · rw [← Option.some.inj h]
        refine ⟨fun _ error herror => (by cases herror), fun _ => ⟨?_, ?_⟩⟩
        · exact ⟨hs.nodup, hs.admitted, hs.grouped, hprep⟩
        · exact hkeep (by rw [hresolving]; decide) (by decide)
      · rw [← Option.some.inj h]
        refine ⟨fun _ error herror => (by cases herror), fun _ => hprep.handle_sound now b hs ?_⟩
        rw [hprep.1]
        exact .inr (.inr rfl)
    · cases h
  | isolated i outcome now =>
    simp only [Executor.onTask] at h
    split at h
    · rename_i hisolating
      rw [hisolating] at hphase
      have hprep : task.Preparing := hphase
      split at h
      · rename_i error
        rw [← Option.some.inj h]
        refine ⟨fun hpaired error' herror => ?_, fun howned => ?_⟩
        · have hsilent := hprep.handle hs hpaired
          rw [hprep.1] at hsilent
          cases herror
          exact hsilent
        · refine hprep.handle_sound now b hs ?_
          rw [hprep.1]
          exact howned error rfl
      · rw [← Option.some.inj h]
        have hkind : task.kind ≠ .batch := by
          rw [hprep.1]
          decide
        obtain ⟨group, hgroup⟩ := hs.grouped hkind
        exact ⟨fun _ error herror => (by cases herror),
          fun _ => enter_sound task now b hkind hgroup hprep.2.1 hprep.2.2⟩
    · cases h
  | operation i result giveUp now =>
    simp only [Executor.onTask] at h
    split at h
    · rename_i attempt hcalling
      rw [hcalling] at hphase
      have hcall : task.Calling := hphase
      cases result with
      | raised error =>
        rw [onOperation] at h
        split at h
        · rename_i hretry
          rw [← Option.some.inj h]
          have hnot : ¬ task.kind.Silent error := by
            intro hsilent
            have hretryable := hretry.2.1
            cases hk : task.kind with
            | single =>
              rw [hk] at hsilent
              rw [show error = .circuitOpen from hsilent] at hretryable
              cases hretryable
            | batch =>
              rw [hk] at hsilent
              exact hsilent
            | derived =>
              rw [hk] at hsilent
              rcases hsilent with rfl | rfl | rfl <;> cases hretryable
          refine ⟨fun _ => hnot, fun _ => ⟨⟨hs.nodup, hs.admitted, hs.grouped, hcall⟩, ?_⟩⟩
          exact hkeep (by rw [hcalling]; simp) (by simp)
        · rw [← Option.some.inj h]
          exact ⟨hcall.handle, hcall.handle_sound now b hs⟩
      | payload fresh =>
        rw [onOperation] at h
        split at h
        · cases h
        · rename_i hkind
          rw [← Option.some.inj h]
          cases fresh with
          | error error =>
            refine ⟨fun hpaired error' herror => ?_, fun howned => ?_⟩
            · cases herror
              exact hcall.handle hpaired
            · exact hcall.handle_sound now b hs (howned error rfl)
          | ok fresh =>
            have hgroups : task.groups = task.admitted := by
              rw [← hcall.2.1, reportedGroups]
              cases hk : task.kind with
              | batch => exact absurd hk hkind
              | single => rfl
              | derived => rfl
            refine ⟨fun _ error herror => (by cases herror), fun _ => ⟨⟨hs.nodup, hs.admitted,
              hs.grouped, ?_⟩, fun identity hflag => ?_⟩⟩
            · change task.recorded ++ task.identitiesOf task.groups = task.identitiesOf task.admitted
              rw [hcall.2.2, hgroups, List.nil_append]
            · obtain ⟨hbefore, hnot⟩ := Executor.flag_recordAll hflag
              refine .inr ⟨hbefore, fun howns => hnot howns.2.1 ?_⟩
              rw [hgroups]
              exact howns.2.2
      | payloads returned fresh =>
        rw [onOperation] at h
        split at h
        · rename_i hkind
          rw [← Option.some.inj h]
          obtain ⟨hbad, hgood⟩ := hcall.onPayloads now b hs hkind
          exact ⟨fun hpaired => hbad hpaired i giveUp, fun howned => hgood fun _ _ => howned⟩
        · cases h
    · cases h
  | cancel i now =>
    simp only [Executor.onTask] at h
    split at h
    · cases h
    · rename_i hwaiting
      rw [← Option.some.inj h]
      have hnot : ∀ kind : ExecutorKind, ¬ kind.Silent .cancelled := by
        intro kind
        cases kind <;> simp [ExecutorKind.Silent]
      cases hp : task.phase with
      | finished => exact absurd hp hwaiting
      | calling attempt =>
        rw [hp] at hphase
        have hcall : task.Calling := hphase
        exact ⟨fun _ => ⟨attempt, hp⟩, fun _ => hcall.handle_sound now b hs (hnot _)⟩
      | resolving =>
        rw [hp] at hphase
        have hprep : task.Preparing := hphase
        refine ⟨fun hpaired => absurd (hprep.handle hs hpaired) (hnot _), fun howned => ?_⟩
        obtain ⟨attempt, hattempt⟩ := howned
        rw [hp] at hattempt
        cases hattempt
      | isolating =>
        rw [hp] at hphase
        have hprep : task.Preparing := hphase
        refine ⟨fun hpaired => absurd (hprep.handle hs hpaired) (hnot _), fun howned => ?_⟩
        obtain ⟨attempt, hattempt⟩ := howned
        rw [hp] at hattempt
        cases hattempt

end
end SourceTask

namespace Executor
variable {K : Type} [DecidableEq K] [KeyText K]

/-- Every attempt, new or waiting, keeps its outcomes paired in this step. -/
def Owned (s : Executor K) (e : ExecutorEvent K) : Prop :=
  match e with
  | .fetchOne .. => True
  | .fetchMany .. => True
  | .deriveOne _ _ _ key ancestry dependencies _ =>
    ∀ error, (dependencies.bind fun dependencies =>
      checkDependencies (ancestry ++ [key]) (Dict.fromKeys dependencies)) = .error error →
      ExecutorKind.derived.Silent error
  | .resolved i _ _ => ∀ task, s.tasks[i]? = some task → task.Owned e
  | .isolated i _ _ => ∀ task, s.tasks[i]? = some task → task.Owned e
  | .operation i _ _ _ => ∀ task, s.tasks[i]? = some task → task.Owned e
  | .cancel i _ => ∀ task, s.tasks[i]? = some task → task.Owned e

structure Sound (s : Executor K) : Prop where
  tasks : ∀ (i : ℕ) task, s.tasks[i]? = some task → task.Sound
  probes : ∀ identity, s.circuits.Flag identity → ∃ (i : ℕ) (task : SourceTask K),
    s.tasks[i]? = some task ∧ task.Owns identity

/-- A step in terms of the attempt that takes it. -/
inductive Steps (s t : Executor K) (e : ExecutorEvent K) : Prop
  | spawned (r : Circuits × SourceTask K) : t = s.spawned r →
      (r.2.Paired → s.Owned e) → (s.Owned e → r.2.Sound ∧
        ∀ identity, r.1.Flag identity → r.2.Owns identity ∨ s.circuits.Flag identity) →
      Steps s t e
  | stepped (i : ℕ) (task : SourceTask K) (r : Circuits × SourceTask K) :
      s.tasks[i]? = some task → t = s.stepped i r → (r.2.Paired → s.Owned e) →
      (s.Owned e → r.2.Sound ∧ task.Answers s.circuits r) → Steps s t e

section
variable {s t : Executor K} {e : ExecutorEvent K}

theorem startBatch_sound (source : String) (policy : CircuitBreakerPolicy) (maxAttempts : ℕ)
    (keys : List K) (now : ℚ) (b : Circuits) :
    (startBatch source policy maxAttempts keys now b).2.Sound ∧
    ∀ identity, (startBatch source policy maxAttempts keys now b).1.Flag identity →
      (startBatch source policy maxAttempts keys now b).2.Owns identity ∨ b.Flag identity := by
  have hnodup := circuitGroups_nodup source policy.scope (Dict.fromKeys keys)
  unfold startBatch
  generalize circuitGroups source policy.scope (Dict.fromKeys keys) = groups at hnodup
  obtain ⟨hsub, hflags⟩ := admitGroups_spec source policy now groups b
  simp only
  generalize admitGroups source policy now groups b = r at hsub hflags ⊢
  obtain ⟨b', active⟩ := r
  refine ⟨⟨hnodup, hsub, fun h => absurd rfl h, ?_⟩, fun identity hflag => ?_⟩
  · by_cases hactive : active = []
    · simp only [hactive, newTask, if_true]
      exact rfl
    · simp only [hactive, newTask, if_false]
      exact ⟨hactive, rfl, trivial⟩
  · rcases hflags identity hflag with h | ⟨henabled, hmem⟩
    · exact .inr h
    · refine .inl ⟨?_, henabled, hmem⟩
      have hactive : active ≠ [] := by
        rintro rfl
        cases hmem
      simp [newTask, hactive]

theorem step_cases (hs : Sound s) (h : step s e = some t) : Steps s t e := by
  have hwaiting : ∀ i : ℕ, (∀ task, s.tasks[i]? = some task → (s.Owned e ↔ task.Owned e)) →
      ((s.tasks[i]?).bind fun task => (onTask task s.circuits e).map (s.stepped i)) = some t →
      Steps s t e := by
    intro i howned h
    obtain ⟨task, htask, h⟩ := Option.bind_eq_some_iff.mp h
    obtain ⟨r, hr, rfl⟩ := Option.map_eq_some_iff.mp h
    obtain ⟨hbad, hgood⟩ := (hs.tasks i task htask).onTask hr
    rw [← howned task htask] at hbad hgood
    exact .stepped i task r htask rfl hbad hgood
  have hsame : ∀ i : ℕ, ∀ task, s.tasks[i]? = some task →
      ((∀ task, s.tasks[i]? = some task → task.Owned e) ↔ task.Owned e) := by
    intro i task htask
    refine ⟨fun hall => hall task htask, fun howned other hother => ?_⟩
    rw [htask, Option.some.injEq] at hother
    rwa [← hother]
  have hnone : ∀ task : SourceTask K, task.admitted = [] → ∀ identity, ¬ task.Owns identity := by
    intro task hadmitted identity howns
    have hmem := howns.2.2
    rw [hadmitted] at hmem
    cases hmem
  cases e with
  | fetchOne source policy maxAttempts key now =>
    obtain ⟨hsound, hanswers⟩ := SourceTask.enter_sound
      (newTask .single source policy maxAttempts [(key, [key])] .finished) now s.circuits
      (by simp [newTask]) rfl rfl rfl
    refine .spawned _ (Option.some.inj h).symm (fun _ => trivial) fun _ =>
      ⟨hsound, fun identity hflag => ?_⟩
    exact (hanswers identity hflag).imp_right And.left
  | fetchMany source policy maxAttempts keys now =>
    exact .spawned _ (Option.some.inj h).symm (fun _ => trivial) fun _ =>
      startBatch_sound source policy maxAttempts keys now s.circuits
  | deriveOne source policy maxAttempts key ancestry dependencies now =>
    have hprep : SourceTask.Preparing
        (newTask .derived source policy maxAttempts [(key, [key])] .resolving) := ⟨rfl, rfl, rfl⟩
    have hsound : SourceTask.Sound
        (newTask .derived source policy maxAttempts [(key, [key])] .resolving) :=
      ⟨List.nodup_singleton _, List.nil_sublist _, fun _ => ⟨_, rfl⟩, hprep⟩
    refine .spawned _ (Option.some.inj h).symm (fun hpaired error herror => ?_) fun howned => ?_
    · simp only [startDerived, herror] at hpaired
      exact hprep.handle hsound hpaired
    · simp only [startDerived]
      split
      · rename_i error herror
        obtain ⟨hended, hanswers⟩ := hprep.handle_sound now s.circuits hsound
          (howned error herror)
        exact ⟨hended, fun identity hflag => (hanswers identity hflag).imp_right And.left⟩
      · exact ⟨hsound, fun identity hflag => .inr hflag⟩
  | resolved i outcome now => exact hwaiting i (hsame i) h
  | isolated i outcome now => exact hwaiting i (hsame i) h
  | operation i result giveUp now => exact hwaiting i (hsame i) h
  | cancel i now => exact hwaiting i (hsame i) h

omit [DecidableEq K] [KeyText K] in
/-- Another attempt, or the one that took the step. -/
theorem stepped_get? {i j : ℕ} {r : Circuits × SourceTask K} {task : SourceTask K}
    (h : (s.stepped i r).tasks[j]? = some task) :
    (j ≠ i ∧ s.tasks[j]? = some task) ∨ task = r.2 := by
  rw [stepped, List.getElem?_set] at h
  split at h
  · split at h
    · exact .inr (Option.some.inj h).symm
    · cases h
  · rename_i hne
    exact .inl ⟨fun hji => hne hji.symm, h⟩

omit [DecidableEq K] [KeyText K] in
theorem spawned_get? {j : ℕ} {r : Circuits × SourceTask K} {task : SourceTask K}
    (h : (s.spawned r).tasks[j]? = some task) : s.tasks[j]? = some task ∨ task = r.2 := by
  rw [spawned, List.getElem?_append] at h
  split at h
  · exact .inl h
  · rw [List.getElem?_singleton] at h
    split at h
    · exact .inr (Option.some.inj h).symm
    · cases h

theorem sound_step (hs : Sound s) (howned : s.Owned e) (h : step s e = some t) : Sound t := by
  cases step_cases hs h with
  | spawned r ht _ hgood =>
    obtain ⟨hsound, hanswers⟩ := hgood howned
    have hnew : t.tasks[s.tasks.length]? = some r.2 := by simp [ht, spawned]
    have hold : ∀ (j : ℕ) task, s.tasks[j]? = some task → t.tasks[j]? = some task := by
      intro j task hj
      rw [ht, spawned, List.getElem?_append_left (List.getElem?_eq_some_iff.mp hj).1, hj]
    refine ⟨fun j task hj => ?_, fun identity hflag => ?_⟩
    · rw [ht] at hj
      rcases spawned_get? hj with hj | rfl
      · exact hs.tasks j task hj
      · exact hsound
    · rw [ht] at hflag
      rcases hanswers identity hflag with howns | hflag
      · exact ⟨_, r.2, hnew, howns⟩
      · obtain ⟨j, task, hj, howns⟩ := hs.probes identity hflag
        exact ⟨j, task, hold j task hj, howns⟩
  | stepped i task r hi ht _ hgood =>
    obtain ⟨hsound, hanswers⟩ := hgood howned
    have hnew : t.tasks[i]? = some r.2 := by
      rw [ht, stepped, List.getElem?_set_self (List.getElem?_eq_some_iff.mp hi).1]
    refine ⟨fun j other hj => ?_, fun identity hflag => ?_⟩
    · rw [ht] at hj
      rcases stepped_get? hj with ⟨_, hj⟩ | rfl
      · exact hs.tasks j other hj
      · exact hsound
    · rw [ht] at hflag
      rcases hanswers identity hflag with howns | ⟨hflag, hnot⟩
      · exact ⟨i, r.2, hnew, howns⟩
      · obtain ⟨j, other, hj, howns⟩ := hs.probes identity hflag
        have hne : j ≠ i := by
          rintro rfl
          rw [hi, Option.some.injEq] at hj
          exact hnot (hj ▸ howns)
        exact ⟨j, other, by rw [ht, stepped, List.getElem?_set_ne hne.symm, hj], howns⟩

/-- A step that is not owned leaves an attempt with too few or too many outcomes. -/
theorem owned_of_paired (hs : Sound s) (h : step s e = some t)
    (hpaired : ∀ (i : ℕ) task, t.tasks[i]? = some task → task.Paired) : s.Owned e := by
  cases step_cases hs h with
  | spawned r ht hbad _ =>
    exact hbad (hpaired s.tasks.length r.2 (by simp [ht, spawned]))
  | stepped i task r hi ht hbad _ =>
    refine hbad (hpaired i r.2 ?_)
    rw [ht, stepped, List.getElem?_set_self (List.getElem?_eq_some_iff.mp hi).1]

end

/-- While every step is owned, every attempt that ended recorded exactly one outcome for each circuit
that admitted it, no other attempt recorded anything, and a probe is taken only while an attempt is
outstanding; the first step that is not owned breaks the pairing. -/
theorem one_outcome_each {es : List (ExecutorEvent K)} {s : Executor K}
    (hrun : RunOf step Owned new es s) :
    (∀ (i : ℕ) task, s.tasks[i]? = some task → task.Paired) ∧
    ((∀ (i : ℕ) task, s.tasks[i]? = some task → task.phase = .finished) →
      ∀ identity, ¬ s.circuits.Flag identity) ∧
    ∀ e t, step s e = some t →
      ((∀ (i : ℕ) task, t.tasks[i]? = some task → task.Paired) ↔ s.Owned e) := by
  have hnew : Sound (new : Executor K) := by
    refine ⟨fun i task h => ?_, fun identity hflag => ?_⟩
    · simp [new] at h
    · simp [new, Circuits.Flag, Circuits.circuit, Circuit.new] at hflag
  have hs := hrun.invariant Sound (fun _ _ _ howned hs h => sound_step hs howned h) hnew
  refine ⟨fun i task hi => (hs.tasks i task hi).paired, fun hquiet identity hflag => ?_,
    fun e t h => ⟨owned_of_paired hs h, fun howned i task hi => ?_⟩⟩
  · obtain ⟨i, task, hi, howns⟩ := hs.probes identity hflag
    exact howns.1 (hquiet i task hi)
  · exact ((sound_step hs howned h).tasks i task hi).paired

/-! ## A probe that meets an open circuit elsewhere -/

instance : KeyText ℕ := ⟨fun _ => "market", fun _ => "price", fun _ => "", fun _ => "market:price"⟩

/-- One failure opens the circuit of a source for ten seconds. -/
def oneFailure : CircuitBreakerPolicy := ⟨.ofSource, 1, 10, true, Nat.one_pos, ten_seconds_nonneg⟩

/-- A failure opens the circuit. -/
def openedCircuit : List (ExecutorEvent ℕ) :=
  [.fetchOne "rest" oneFailure 1 0 0, .operation 0 (.raised (.other true)) false 0]

/-- A derived source is the probe that closes the circuit again. -/
def closedAgain : List (ExecutorEvent ℕ) :=
  openedCircuit ++ [.fetchMany "rest" oneFailure 1 [0, 1] 5,
    .deriveOne "rest" oneFailure 1 1 [] (.ok [some 0]) 6, .resolved 2 (.ok []) 7,
    .isolated 2 (.ok ()) 10, .operation 2 (.payload (.ok true)) false 11]

theorem one_outcome_each_recovery : ∃ s : Executor ℕ,
    s.tasks.map (fun task => task.recorded.length) = [1, 0, 1] ∧
    (∀ (i : ℕ) task, s.tasks[i]? = some task → task.Paired) ∧
    ∀ identity, ¬ s.circuits.Flag identity := by
  have hend : (exec step new closedAgain).map (fun s =>
      s.tasks.map fun task => (task.recorded.length, task.phase)) =
      some [(1, .finished), (0, .finished), (1, .finished)] := by decide +kernel
  obtain ⟨s, hs, htasks⟩ := Option.map_eq_some_iff.mp hend
  have howned := RunOf.of_labels (p := fun e => ∀ s, Owned s e) (exec_run hs) (by
    simp only [closedAgain, openedCircuit, List.cons_append, List.nil_append, List.forall_mem_cons]
    refine ⟨fun s => trivial, fun s task _ => ?_, fun s => trivial, fun s error h => ?_,
      fun s task _ error h => ?_, fun s task _ error h => ?_, fun s task _ error h => ?_, ?_⟩
    · cases hk : task.kind <;> simp [SourceTask.Owned, ExecutorKind.Silent, hk]
    · cases h
    · cases h
    · cases h
    · cases h
    · simp)
  obtain ⟨hpaired, hquiet, _⟩ := one_outcome_each (howned.mono fun s e h => h s)
  refine ⟨s, ?_, hpaired, hquiet fun i task hi => ?_⟩
  · have hrecorded := congrArg (List.map Prod.fst) htasks
    rwa [List.map_map] at hrecorded
  · have hmem := List.mem_map_of_mem (f := fun task => task.phase) (List.mem_of_getElem? hi)
    have hphases := congrArg (List.map Prod.snd) htasks
    simp only [List.map_map, Function.comp_def] at hphases
    rw [hphases] at hmem
    simpa using hmem

/-- The probe's source raises `CircuitOpenError`, and the circuit stays locked. -/
theorem locked_half_open :
    ¬ ∀ (es : List (ExecutorEvent ℕ)) (s : Executor ℕ), Run step new es s →
      (∀ (i : ℕ) task, s.tasks[i]? = some task → task.Paired) ∧
      ((∀ (i : ℕ) task, s.tasks[i]? = some task → task.phase = .finished) →
        ∀ identity, ¬ s.circuits.Flag identity) := by
  intro h
  have hend : (exec step new (openedCircuit ++ [.fetchOne "rest" oneFailure 1 0 10,
      .operation 1 (.raised .circuitOpen) false 11])).map (fun s =>
        (s.tasks.map fun task => task.phase,
          (s.circuits.circuit (identityFor "rest" 0 .ofSource)).halfOpenProbeActive)) =
      some ([.finished, .finished], true) := by decide +kernel
  obtain ⟨s, hs, hview⟩ := Option.map_eq_some_iff.mp hend
  rw [Prod.mk.injEq] at hview
  refine (h _ s (exec_run hs)).2 (fun i task hi => ?_) (identityFor "rest" 0 .ofSource) hview.2
  have hmem := List.mem_map_of_mem (f := fun task => task.phase) (List.mem_of_getElem? hi)
  rw [hview.1] at hmem
  simpa using hmem

end Executor
end Coalestra
