import Coalestra.Orchestration.Refreshes

/-! # What refreshes report

Each refresh counts once in the collector that scheduled it, once among the metrics of its key for
each status, and leaves an event behind unless it was cancelled. From this, a manager that was
closed with `cancel=True` never counts another completion. -/

namespace Coalestra
set_option autoImplicit false
set_option maxHeartbeats 250000

/-- The statuses a task has reported. -/
def RefreshTask.reports {K : Type} (task : RefreshTask K) : RefreshStatus → Bool
  | .scheduled => true
  | .ended outcome => decide (task.progress = .ended outcome)

/-- The counter that goes with a status. -/
def RefreshCounts.book (c : RefreshCounts) : RefreshStatus → RefreshCounts
  | .scheduled => { c with scheduled := c.scheduled + 1 }
  | .ended outcome => c.count outcome

/-- The metric that goes with an event. -/
def RefreshEvent.metric {K : Type} : RefreshEvent K → K × RefreshStatus
  | .scheduled key _ _ => (key, .scheduled)
  | .completed key _ _ => (key, .ended .success)
  | .failed key _ _ => (key, .ended .failure)

namespace RefreshManager
variable {K V : Type} [DecidableEq K]

/-- How many tasks of these keys and collectors have reported `status`. -/
def reported (s : RefreshManager K) (q : K → ℕ → Bool) (status : RefreshStatus) : ℕ :=
  s.created.countP fun task => q task.key task.diagnostics && task.reports status

/-- A step from `s` to `s'` that reports `entry`: a key, a collector and a status. -/
structure Books (s s' : RefreshManager K) (entry : Option (K × ℕ × RefreshStatus)) : Prop where
  reported : ∀ q status, s'.reported q status = s.reported q status +
    if entry.any fun e => q e.1 e.2.1 && decide (e.2.2 = status) then 1 else 0
  diagnostics : s'.diagnostics = entry.elim s.diagnostics fun e =>
    Function.update s.diagnostics e.2.1 ((s.diagnostics e.2.1).book e.2.2)
  metrics : s'.metrics = s.metrics ++ (entry.map fun e => (e.1, e.2.2)).toList
  events : s'.events.map RefreshEvent.metric = s.events.map RefreshEvent.metric ++
    (entry.map fun e => (e.1, e.2.2)).toList.filter fun m => decide (m.2 ≠ .ended .cancelled)

theorem Books.of_created {s s' : RefreshManager K}
    (hcreated : ∀ q status, s'.reported q status = s.reported q status)
    (hdiagnostics : s'.diagnostics = s.diagnostics) (hmetrics : s'.metrics = s.metrics)
    (hevents : s'.events = s.events) : s.Books s' none := by
  refine ⟨fun q status => by simp [hcreated], hdiagnostics, ?_, ?_⟩
  · simp [hmetrics]
  · simp [hevents]

theorem reported_set {s s' : RefreshManager K} {i : ℕ} {t u : RefreshTask K}
    (ht : s.task? i = some t) (hs : s'.created = s.created.set i u) (q : K → ℕ → Bool)
    (status : RefreshStatus) :
    s'.reported q status + (if q t.key t.diagnostics && t.reports status then 1 else 0) =
      s.reported q status + if q u.key u.diagnostics && u.reports status then 1 else 0 := by
  rw [reported, reported, hs]
  exact countP_set_add (fun t : RefreshTask K => q t.key t.diagnostics && t.reports status) u ht

theorem Books.set {s s' : RefreshManager K} {i : ℕ} {t u : RefreshTask K}
    (ht : s.task? i = some t) (hs : s'.created = s.created.set i u)
    (hu : ∀ q : K → ℕ → Bool, ∀ status,
      (q u.key u.diagnostics && u.reports status) = (q t.key t.diagnostics && t.reports status))
    (hdiagnostics : s'.diagnostics = s.diagnostics) (hmetrics : s'.metrics = s.metrics)
    (hevents : s'.events = s.events) : s.Books s' none := by
  refine .of_created (fun q status => ?_) hdiagnostics hmetrics hevents
  have h := reported_set ht hs q status
  rw [hu] at h
  omega

theorem reported_cancel (s : RefreshManager K) (tasks : List ℕ) (q : K → ℕ → Bool)
    (status : RefreshStatus) : (s.cancel tasks).reported q status = s.reported q status := by
  have hsame : ∀ t : RefreshTask K, ∀ b : Bool,
      (q (if b then { t with cancelRequested := true } else t).key
          (if b then { t with cancelRequested := true } else t).diagnostics &&
        (if b then { t with cancelRequested := true } else t).reports status) =
      (q t.key t.diagnostics && t.reports status) := by
    intro t b
    cases b <;> cases status <;> rfl
  rw [reported, reported, cancel, List.mapIdx_eq_zipIdx_map, List.countP_map,
    ← List.zipIdx_map_fst 0 s.created, List.countP_map]
  simp only [List.zipIdx_map_fst]
  apply List.countP_congr
  rintro ⟨t, i⟩ -
  simp only [Function.comp_apply, hsame]

theorem Books.cancel (s : RefreshManager K) (tasks : List ℕ) : s.Books (s.cancel tasks) none :=
  .of_created (reported_cancel s tasks) rfl rfl rfl

theorem Books.conclude {s : RefreshManager K} {i : ℕ} {t : RefreshTask K}
    {outcome : RefreshOutcome} {event : Option (RefreshEvent K)} (ht : s.task? i = some t)
    (hp : t.progress = .running)
    (hevent : event.map RefreshEvent.metric =
      if outcome = .cancelled then none else some (t.key, .ended outcome)) :
    s.Books (s.conclude i t outcome event) (some (t.key, t.diagnostics, .ended outcome)) := by
  refine ⟨fun q status => ?_, rfl, rfl, ?_⟩
  · have hcreated : (s.conclude i t outcome event).created =
        s.created.set i { t with progress := .ended outcome } := rfl
    have h := reported_set ht hcreated q status
    cases status with
    | scheduled => simpa [RefreshTask.reports] using h
    | ended o =>
      simp only [RefreshTask.reports, hp, reduceCtorEq, decide_false, Bool.and_false,
        Bool.false_eq_true, if_false, Nat.add_zero, RefreshProgress.ended.injEq] at h
      rw [h]
      simp
  · cases event with
    | none =>
      by_cases ho : outcome = .cancelled
      · simp [RefreshManager.conclude, ho]
      · simp [ho] at hevent
    | some e =>
      by_cases ho : outcome = .cancelled
      · simp [ho] at hevent
      · simp only [ho, if_false, Option.map_some, Option.some.injEq] at hevent
        simp [RefreshManager.conclude, ho, hevent]

theorem Books.settle {s : RefreshManager K} {i : ℕ} {t : RefreshTask K} (ht : s.task? i = some t)
    (hp : t.progress = .running) (outcome : FlightOutcome K V) :
    ∃ entry, s.Books (s.settle i t outcome) entry := by
  cases outcome with
  | delivered result =>
    cases result with
    | ok value =>
      by_cases h : value.stale = true
      · exact ⟨_, by rw [RefreshManager.settle, if_pos h]; exact .conclude ht hp rfl⟩
      · exact ⟨_, by rw [RefreshManager.settle, if_neg h]; exact .conclude ht hp rfl⟩
    | error e => exact ⟨_, .conclude ht hp rfl⟩
  | raised e => exact ⟨_, .conclude ht hp rfl⟩
  | cancelled => exact ⟨_, .conclude ht hp rfl⟩

theorem Books.schedule (s : RefreshManager K) (key : K) (diagnostics : ℕ)
    (reason snapshotId : String) :
    ∃ entry, s.Books (s.schedule key diagnostics reason snapshotId).2 entry := by
  unfold RefreshManager.schedule
  by_cases hc : s.closed = true
  · exact ⟨none, by simp only [hc, if_true]; exact .of_created (fun _ _ => rfl) rfl rfl rfl⟩
  · by_cases hp : s.pending key = true
    · refine ⟨none, ?_⟩
      simp only [hc, hp, if_true]
      exact .of_created (fun _ _ => rfl) rfl rfl rfl
    · refine ⟨some (key, diagnostics, .scheduled), ?_⟩
      simp only [hc, hp]
      refine ⟨fun q status => ?_, rfl, rfl, by simp [RefreshEvent.metric]⟩
      simp only [RefreshManager.reported, Bool.false_eq_true, if_false, List.countP_append,
        List.countP_singleton]
      cases status <;> simp [RefreshTask.reports]

theorem Books.step {s s' : RefreshManager K} {l : RefreshLabel K V} (h : s.step l = some s') :
    ∃ entry, s.Books s' entry := by
  cases l with
  | schedule key diagnostics reason snapshotId =>
    rw [RefreshManager.step, Option.some.injEq] at h
    subst h
    exact Books.schedule s key diagnostics reason snapshotId
  | start i =>
    simp only [RefreshManager.step, Option.bind_eq_some_iff, Option.ite_none_right_eq_some,
      Option.some.injEq] at h
    obtain ⟨t, ht, hp, rfl⟩ := h
    refine ⟨none, .set ht rfl (fun q status => ?_) rfl rfl rfl⟩
    cases status with
    | scheduled => rfl
    | ended outcome => cases hc : t.cancelRequested <;> simp [RefreshTask.reports, hp]
  | resume i outcome =>
    simp only [RefreshManager.step, Option.bind_eq_some_iff, Option.ite_none_right_eq_some,
      Option.some.injEq, Bool.and_eq_true, decide_eq_true_eq] at h
    obtain ⟨t, ht, ⟨hp, -⟩, rfl⟩ := h
    exact Books.settle ht hp outcome
  | cancel i =>
    rw [RefreshManager.step, Option.some.injEq] at h
    subst h
    exact ⟨none, .cancel s [i]⟩
  | finish i =>
    simp only [RefreshManager.step, Option.bind_eq_some_iff, Option.ite_none_left_eq_some,
      Option.some.injEq] at h
    obtain ⟨t, ht, -, rfl⟩ := h
    exact ⟨none, .set ht rfl (fun q status => by cases status <;> rfl) rfl rfl rfl⟩
  | call call =>
    rw [RefreshManager.step, Option.some.injEq] at h
    subst h
    refine ⟨none, ?_⟩
    cases call with
    | wait => exact .of_created (fun _ _ => rfl) rfl rfl rfl
    | close cancel =>
      cases cancel with
      | false => exact .of_created (fun _ _ => rfl) rfl rfl rfl
      | true => exact .of_created (reported_cancel { s with closed := true } _) rfl rfl rfl
  | turn w =>
    simp only [RefreshManager.step, Option.bind_eq_some_iff] at h
    obtain ⟨caller, -, h⟩ := h
    split at h
    · rw [Option.ite_none_right_eq_some, Option.some.injEq] at h
      obtain ⟨-, rfl⟩ := h
      exact ⟨none, .of_created (fun _ _ => rfl) rfl rfl rfl⟩
    · cases h
  | interrupt w =>
    simp only [RefreshManager.step, Option.bind_eq_some_iff] at h
    obtain ⟨caller, -, h⟩ := h
    split at h
    · rw [Option.some.injEq] at h
      subst h
      exact ⟨none, .of_created (reported_cancel s _) rfl rfl rfl⟩
    · cases h

/-- The tasks of one collector, and the tasks of one key. -/
def ofCollector (d : ℕ) : K → ℕ → Bool := fun _ d' => decide (d' = d)

def ofKey (key : K) : K → ℕ → Bool := fun k _ => decide (k = key)

/-- Counters, metrics and events say of the tasks what has become of them. -/
structure Booked (s : RefreshManager K) : Prop where
  diagnostics : ∀ d, s.diagnostics d = ⟨s.reported (ofCollector d) .scheduled,
    s.reported (ofCollector d) (.ended .success),
    s.reported (ofCollector d) (.ended .cancelled) +
      s.reported (ofCollector d) (.ended .failure)⟩
  metrics : ∀ key status, s.metrics.countP (fun m => decide (m = (key, status))) =
    s.reported (ofKey key) status
  events : s.events.map RefreshEvent.metric =
    s.metrics.filter fun m => decide (m.2 ≠ .ended .cancelled)

theorem Books.booked {s s' : RefreshManager K} {entry : Option (K × ℕ × RefreshStatus)}
    (h : s.Books s' entry) (hs : s.Booked) : s'.Booked := by
  refine ⟨fun d => ?_, fun key status => ?_, ?_⟩
  · simp only [h.reported, h.diagnostics]
    cases entry with
    | none => simpa using hs.diagnostics d
    | some e =>
      obtain ⟨key, d', status⟩ := e
      by_cases hd : d = d'
      · subst hd
        rw [Option.elim_some, Function.update_self, hs.diagnostics]
        cases status with
        | scheduled => simp [RefreshCounts.book, ofCollector]
        | ended outcome =>
          cases outcome <;>
            simp [RefreshCounts.book, RefreshCounts.count, ofCollector] <;> omega
      · have hd' : ¬ d' = d := fun e => hd e.symm
        rw [Option.elim_some, Function.update_of_ne hd, hs.diagnostics]
        simp [ofCollector, hd']
  · rw [h.metrics, h.reported, List.countP_append, hs.metrics]
    cases entry with
    | none => simp
    | some e =>
      obtain ⟨key', d', status'⟩ := e
      simp [ofKey, List.countP_singleton, Prod.ext_iff]
  · rw [h.events, h.metrics, List.filter_append, hs.events]

theorem Booked.run {s : RefreshManager K} {ls : List (RefreshLabel K V)}
    (h : Run RefreshManager.step .new ls s) : s.Booked := by
  refine h.invariant Booked (fun s l t _ hs hstep => ?_) ⟨fun d => rfl, fun _ _ => rfl, rfl⟩
  obtain ⟨entry, hentry⟩ := Books.step hstep
  exact hentry.booked hs

/-- Every task is live, discarded before its first step, or has reported one end. -/
theorem reported_scheduled (s : RefreshManager K) (q : K → ℕ → Bool) :
    s.reported q .scheduled = s.reported q (.ended .success) + s.reported q (.ended .cancelled) +
      s.reported q (.ended .failure) +
      s.created.countP (fun t => q t.key t.diagnostics && t.live) +
      s.created.countP (fun t => q t.key t.diagnostics && decide (t.progress = .discarded)) := by
  unfold reported
  induction s.created with
  | nil => rfl
  | cons t tasks ih =>
    simp only [List.countP_cons, ih]
    cases hq : q t.key t.diagnostics with
    | false => simp
    | true =>
      cases hp : t.progress with
      | created | running | discarded => simp [RefreshTask.reports, RefreshTask.live, hp]; omega
      | ended outcome =>
        cases outcome <;> simp [RefreshTask.reports, RefreshTask.live, hp] <;> omega

theorem Stopping_of_cancel {s : RefreshManager K} (hs : s.Sound) {i : ℕ} {t : RefreshTask K}
    (ht : s.task? i = some t) (hl : t.live = true) :
    ∃ u, (s.enter (.close true)).task? i = some u ∧ u.Stopping := by
  have hmem : i ∈ s.tasks.values :=
    List.mem_map.mpr ⟨_, Dict.mem_entries.mpr (hs.live i t ht hl), rfl⟩
  have htask : (s.enter (.close true)).task? i =
      ({ s with closed := true }.cancel s.tasks.values).task? i := rfl
  rw [htask, task?_cancel]
  refine ⟨{ t with cancelRequested := true }, ?_, ?_⟩
  · simp [task?, show s.created[i]? = some t from ht, hmem, hl]
  · unfold RefreshTask.live at hl
    unfold RefreshTask.Stopping
    split <;> simp_all

theorem countP_follows {p : RefreshTask K → Bool} {s t : RefreshManager K} (h : s.Follows t)
    (hp : ∀ i a b, s.task? i = some a → t.task? i = some b → p b = p a) :
    t.created.countP p = s.created.countP p := by
  have hmap : t.created.map p = s.created.map p := by
    apply List.ext_getElem?
    intro i
    rw [List.getElem?_map, List.getElem?_map]
    cases hs : s.created[i]? with
    | none =>
      have hlen : t.created.length ≤ i := by
        rw [h.length]
        exact List.getElem?_eq_none_iff.mp hs
      rw [List.getElem?_eq_none hlen]
    | some a =>
      obtain ⟨b, hb, -⟩ := h.task i a hs
      rw [show t.created[i]? = some b from hb]
      simp [hp i a b hs hb]
  have hcount := congrArg (List.countP id) hmap
  simpa only [List.countP_map, Function.id_comp] using hcount

/-- After `close(cancel=True)` no refresh completes any more: those that were live end cancelled,
or were discarded before they began. -/
theorem cancelled_refreshes_stop {s t : RefreshManager K} {ls ms : List (RefreshLabel K V)}
    (h : Run step new ls s) (hrun : Run step (s.enter (.close true)) ms t) :
    (∀ i u, s.task? i = some u → u.live = true → ∃ v, t.task? i = some v ∧ v.Stopping) ∧
    ∀ d, (t.diagnostics d).completed = (s.diagnostics d).completed := by
  have hsound := Sound.run h
  have hfollows : (s.enter (.close true)).Follows t :=
    (closed_follows hrun (closed_shut s true)).1
  have hstops : ∀ i u, s.task? i = some u → u.live = true →
      ∃ v, t.task? i = some v ∧ v.Stopping := by
    intro i u hu hl
    obtain ⟨v, hv, hstop⟩ := Stopping_of_cancel hsound hu hl
    obtain ⟨w, hw, hadv⟩ := hfollows.task i v hv
    exact ⟨w, hw, hadv.stopping hstop⟩
  refine ⟨hstops, fun d => ?_⟩
  have hfull : Run step new (ls ++ .call (.close true) :: ms) t :=
    RunOf.append h (.cons trivial rfl hrun)
  rw [(Booked.run hfull).diagnostics, (Booked.run h).diagnostics]
  have hall : s.Follows t := (Quiet.enter s _).toFollows.trans hfollows
  apply countP_follows hall
  intro i a b ha hb
  obtain ⟨b', hb', hadv⟩ := hall.task i a ha
  rw [hb, Option.some.injEq] at hb'
  subst hb'
  rw [hadv.diagnostics, hadv.key, RefreshTask.reports, RefreshTask.reports]
  cases hl : a.live with
  | false => rw [hadv.ended hl]
  | true =>
    obtain ⟨v, hv, hstop⟩ := hstops i a ha hl
    rw [hb, Option.some.injEq] at hv
    subst hv
    have hbefore : a.progress ≠ .ended .success := by
      intro hp
      simp [RefreshTask.live, hp] at hl
    have hafter : b.progress ≠ .ended .success := by
      intro hp
      simp [RefreshTask.Stopping, hp] at hstop
    simp [hbefore, hafter]

/-- The second refresh takes its cancellation. -/
def takesCancellation : List (RefreshLabel ℕ ℕ) := [.resume 1 .cancelled]

theorem cancelled_refreshes_stop_two :
    ∃ s, exec step new twoRefreshes = some s ∧
      ∃ t, exec step (s.enter (.close true)) takesCancellation = some t ∧
        (t.diagnostics 0).completed = (s.diagnostics 0).completed := by
  refine ⟨_, rfl, _, rfl, ?_⟩
  have hrun : Run step new twoRefreshes _ := exec_run rfl
  have hrest : ∀ {s t : RefreshManager ℕ}, exec step s takesCancellation = some t →
      Run step s takesCancellation t := exec_run
  exact (cancelled_refreshes_stop hrun (hrest rfl)).2 0

end RefreshManager
end Coalestra
