import Coalestra.Orchestration.SingleFlight

/-! # Flights deliver once

Over any interleaving of calls, producers and cancellations: a key has one running factory, a future
is settled once and by its own producer, a call gets what the futures it captured were settled with,
and a cancelled call leaves no trace. -/

namespace Coalestra
set_option autoImplicit false
set_option maxHeartbeats 250000

namespace SingleFlight

section
variable {K T E : Type} [DecidableEq K]

section
variable {omitted : List K → E} {s : State K T E}

/-! ## One step -/

theorem produceOutcome_ok {owned : List K} {produced mapping : Dict K T}
    (h : produceOutcome omitted owned produced = .ok mapping) : ∀ k ∈ owned, k ∈ mapping.keys := by
  unfold produceOutcome at h
  simp only at h
  split at h
  · rename_i hmissing
    rw [Except.ok.injEq] at h
    subst h
    intro k hk
    have hnot := List.filter_eq_nil_iff.mp hmissing k hk
    simpa using hnot
  · cases h

theorem produce_sound (h : Sound omitted s) {i : ℕ} {p : Producer K T E}
    (hi : s.producers[i]? = some p) {e : Event K T E} {t : State K T E}
    (hstep : s.produce omitted i p e = some t) : Sound omitted t := by
  cases e with
  | start j =>
    simp only [State.produce] at hstep
    split at hstep
    · rename_i hphase
      rw [← Option.some.inj hstep]
      refine h.setProducer hi ?_ ?_ ?_
      · intro outcome ho
        simp [Producer.outcome, hphase] at ho
      · simp [Producer.pending, hphase]
      · intro mapping ho
        simp [Producer.outcome] at ho
    · cases hstep
  | produced j mapping =>
    simp only [State.produce] at hstep
    split at hstep
    · rename_i hphase
      rw [← Option.some.inj hstep]
      refine h.setProducer hi ?_ ?_ ?_
      · intro outcome ho
        simp [Producer.outcome, hphase] at ho
      · simp [Producer.pending, hphase]
      · intro mapping' ho
        exact produceOutcome_ok (Option.some.inj ho)
    · cases hstep
  | fails j error =>
    simp only [State.produce] at hstep
    split at hstep
    · rename_i hphase
      rw [← Option.some.inj hstep]
      refine h.setProducer hi ?_ ?_ ?_
      · intro outcome ho
        simp [Producer.outcome, hphase] at ho
      · simp [Producer.pending, hphase]
      · intro mapping' ho
        simp [Producer.outcome] at ho
    · cases hstep
  | complete j =>
    simp only [State.produce] at hstep
    split at hstep
    · rename_i outcome hphase
      rw [← Option.some.inj hstep]
      have hsame : p.outcome = some outcome := by rw [Producer.outcome, hphase]
      refine h.setProducer hi ?_ ?_ ?_
      · intro o ho
        rw [← ho, hsame]
        rfl
      · simp [Producer.pending, hphase]
      · intro mapping ho
        refine (h.producers i p hi).1.produced mapping ?_
        rw [hsame]
        exact ho
    · rename_i outcome key rest hphase
      rw [← Option.some.inj hstep]
      exact h.complete hi hphase
    · cases hstep
  | _ => simp [State.produce] at hstep

theorem proceed_sound (h : Sound omitted s) {c : ℕ} {caller : Caller K T E}
    (hc : s.callers[c]? = some caller) {e : Event K T E} {t : State K T E}
    (hstep : s.proceed c caller e = some t) : Sound omitted t := by
  have hsound := h.callers c caller hc
  have hended := hsound.ended
  cases e with
  | lock d =>
    simp only [State.proceed] at hstep
    split at hstep
    · rename_i hphase
      rw [← Option.some.inj hstep]
      exact h.lock hc hphase
    · cases hstep
  | deliver d =>
    simp only [State.proceed] at hstep
    split at hstep
    · rename_i hphase
      rw [hphase] at hended
      obtain ⟨results, hresults, rfl⟩ := Option.map_eq_some_iff.mp hstep
      exact h.setCaller ⟨hsound.nodup, hsound.captured, hended, hresults⟩ trivial
    · cases hstep
  | raise d i =>
    simp only [State.proceed] at hstep
    split at hstep
    · split at hstep
      · rename_i error hfound
        rw [← Option.some.inj hstep]
        obtain ⟨future, hfuture, houtcome⟩ := Option.bind_eq_some_iff.mp hfound
        obtain ⟨⟨k, f, joined⟩, hentry, hf⟩ := Option.bind_eq_some_iff.mp hfuture
        exact h.setCaller ⟨hsound.nodup, hsound.captured, k, f, joined, future,
          List.mem_of_getElem? hentry, hf, houtcome⟩ trivial
      · cases hstep
    · cases hstep
  | cancel d =>
    simp only [State.proceed] at hstep
    split at hstep
    · rw [← Option.some.inj hstep]
      exact h.setCaller ⟨hsound.nodup, hsound.captured, trivial⟩ trivial
    · rw [← Option.some.inj hstep]
      exact h.setCaller ⟨hsound.nodup, hsound.captured, trivial⟩ trivial
    · cases hstep
  | _ => simp [State.proceed] at hstep

/-- Calls arrive, and otherwise one task takes its next step. -/
theorem step_cases {e : Event K T E} {t : State K T E} (h : step omitted s e = some t) :
    (∃ keys, e = .runMany keys) ∨
    (∃ c caller, e.task = some (.caller c) ∧ s.callers[c]? = some caller ∧
      s.proceed c caller e = some t) ∨
    ∃ i p, e.task = some (.producer i) ∧ s.producers[i]? = some p ∧
      s.produce omitted i p e = some t := by
  cases e with
  | runMany keys => exact .inl ⟨keys, rfl⟩
  | lock c =>
    obtain ⟨caller, hc, hstep⟩ := Option.bind_eq_some_iff.mp h
    exact .inr (.inl ⟨c, caller, rfl, hc, hstep⟩)
  | deliver c =>
    obtain ⟨caller, hc, hstep⟩ := Option.bind_eq_some_iff.mp h
    exact .inr (.inl ⟨c, caller, rfl, hc, hstep⟩)
  | raise c i =>
    obtain ⟨caller, hc, hstep⟩ := Option.bind_eq_some_iff.mp h
    exact .inr (.inl ⟨c, caller, rfl, hc, hstep⟩)
  | cancel c =>
    obtain ⟨caller, hc, hstep⟩ := Option.bind_eq_some_iff.mp h
    exact .inr (.inl ⟨c, caller, rfl, hc, hstep⟩)
  | start i =>
    obtain ⟨p, hp, hstep⟩ := Option.bind_eq_some_iff.mp h
    exact .inr (.inr ⟨i, p, rfl, hp, hstep⟩)
  | produced i mapping =>
    obtain ⟨p, hp, hstep⟩ := Option.bind_eq_some_iff.mp h
    exact .inr (.inr ⟨i, p, rfl, hp, hstep⟩)
  | fails i error =>
    obtain ⟨p, hp, hstep⟩ := Option.bind_eq_some_iff.mp h
    exact .inr (.inr ⟨i, p, rfl, hp, hstep⟩)
  | complete i =>
    obtain ⟨p, hp, hstep⟩ := Option.bind_eq_some_iff.mp h
    exact .inr (.inr ⟨i, p, rfl, hp, hstep⟩)

theorem sound_step {e : Event K T E} {t : State K T E} (h : Sound omitted s)
    (hstep : step omitted s e = some t) : Sound omitted t := by
  rcases step_cases hstep with ⟨keys, rfl⟩ | ⟨c, caller, _, hc, hproceed⟩ | ⟨i, p, _, hp, hproduce⟩
  · rw [← Option.some.inj hstep]
    exact h.runMany keys
  · exact proceed_sound h hc hproceed
  · exact produce_sound h hp hproduce

theorem sound_run {es : List (Event K T E)} {s : State K T E}
    (hrun : Run (step omitted) State.empty es s) : Sound omitted s :=
  hrun.invariant (Sound omitted) (fun _ _ _ _ h hstep => sound_step h hstep) (sound_empty omitted)

/-- A future changes only in a `_complete` of its own producer. -/
theorem settled_by_owner (h : Sound omitted s) {e : Event K T E} {t : State K T E}
    (hstep : step omitted s e = some t) {f : ℕ} {future : Future K T E}
    (hf : s.futures[f]? = some future) :
    t.futures[f]? = some future ∨ e = .complete future.owner := by
  rcases step_cases hstep with ⟨keys, rfl⟩ | ⟨c, caller, htask, hc, hproceed⟩ |
    ⟨i, p, htask, hp, hproduce⟩
  · rw [← Option.some.inj hstep]
    exact .inl hf
  · left
    cases e with
    | lock d =>
      simp only [State.proceed] at hproceed
      split at hproceed
      · rw [← Option.some.inj hproceed]
        exact (reserving s (h.callers c caller hc).nodup).old f future hf
      · cases hproceed
    | deliver d =>
      simp only [State.proceed] at hproceed
      split at hproceed
      · obtain ⟨results, _, rfl⟩ := Option.map_eq_some_iff.mp hproceed
        exact hf
      · cases hproceed
    | raise d i =>
      simp only [State.proceed] at hproceed
      split at hproceed
      · split at hproceed
        · rw [← Option.some.inj hproceed]
          exact hf
        · cases hproceed
      · cases hproceed
    | cancel d =>
      simp only [State.proceed] at hproceed
      split at hproceed
      · rw [← Option.some.inj hproceed]
        exact hf
      · rw [← Option.some.inj hproceed]
        exact hf
      · cases hproceed
    | _ => simp [State.proceed] at hproceed
  · cases e with
    | complete j =>
      have hji : j = i := by simpa [Event.task] using htask
      subst hji
      simp only [State.produce] at hproduce
      split at hproduce
      · rw [← Option.some.inj hproduce]
        exact .inl hf
      · rename_i outcome key rest hphase
        have hkey : key ∈ p.pending := by simp [Producer.pending, hphase]
        obtain ⟨g, other, _, hg, _, howner, _, hsettle⟩ :=
          settle_eq h hp hkey (completionOf omitted outcome key)
        rw [hsettle] at hproduce
        rw [← Option.some.inj hproduce]
        by_cases hgf : g = f
        · subst hgf
          rw [hf, Option.some.injEq] at hg
          exact .inr (by rw [hg, howner])
        · left
          change (s.futures.set g _)[f]? = _
          rw [List.getElem?_set_ne hgf]
          exact hf
      · cases hproduce
    | start j =>
      left
      simp only [State.produce] at hproduce
      split at hproduce
      · rw [← Option.some.inj hproduce]
        exact hf
      · cases hproduce
    | produced j mapping =>
      left
      simp only [State.produce] at hproduce
      split at hproduce
      · rw [← Option.some.inj hproduce]
        exact hf
      · cases hproduce
    | fails j error =>
      left
      simp only [State.produce] at hproduce
      split at hproduce
      · rw [← Option.some.inj hproduce]
        exact hf
      · cases hproduce
    | _ => simp [State.produce] at hproduce

/-! ## Calls that leave -/

/-- The same state but for what one call knows and where it stands. -/
structure Agree (c : ℕ) (s t : State K T E) : Prop where
  tasks : t.tasks = s.tasks
  futures : t.futures = s.futures
  producers : t.producers = s.producers
  length : t.callers.length = s.callers.length
  callers : ∀ (d : ℕ), d ≠ c → t.callers[d]? = s.callers[d]?

theorem Agree.symm {c : ℕ} {s t : State K T E} (h : Agree c s t) : Agree c t s :=
  ⟨h.tasks.symm, h.futures.symm, h.producers.symm, h.length.symm, fun d hd => (h.callers d hd).symm⟩

theorem Agree.setCaller {c d : ℕ} {s t : State K T E} (h : Agree c s t) (caller : Caller K T E) :
    Agree c { s with callers := s.callers.set d caller }
      { t with callers := t.callers.set d caller } := by
  refine ⟨h.tasks, h.futures, h.producers, by simp [h.length], fun i hi => ?_⟩
  simp only [List.getElem?_set, h.length, h.callers i hi]

theorem Agree.proceed {c d : ℕ} {s t u : State K T E} {caller : Caller K T E} {e : Event K T E}
    (h : Agree c s t) (hstep : s.proceed d caller e = some u) :
    ∃ v, t.proceed d caller e = some v ∧ Agree c u v := by
  have hset : ∀ phase, Agree c (s.setCaller d caller phase) (t.setCaller d caller phase) :=
    fun phase => h.setCaller _
  cases e with
  | lock j =>
    simp only [State.proceed] at hstep ⊢
    split at hstep
    · rw [← Option.some.inj hstep]
      refine ⟨_, rfl, ?_⟩
      have hreserve : t.reserve caller.keys = s.reserve caller.keys := by
        rw [State.reserve, State.reserve, h.tasks, h.futures, h.producers]
      refine ⟨?_, ?_, ?_, ?_, fun i hi => ?_⟩
      · rw [State.lock, State.lock, hreserve]
      · rw [State.lock, State.lock, hreserve]
      · rw [State.lock, State.lock, hreserve, h.producers]
      · simp [State.lock, h.length]
      · rw [State.lock, State.lock, hreserve]
        simp only [List.getElem?_set, h.length, h.callers i hi]
    · cases hstep
  | deliver j =>
    simp only [State.proceed, h.futures] at hstep ⊢
    split at hstep
    · obtain ⟨results, hresults, rfl⟩ := Option.map_eq_some_iff.mp hstep
      exact ⟨_, by rw [hresults]; rfl, hset _⟩
    · cases hstep
  | raise j i =>
    simp only [State.proceed, h.futures] at hstep ⊢
    split at hstep
    · split at hstep
      · rename_i error hfound
        rw [← Option.some.inj hstep]
        exact ⟨_, by rw [hfound], hset _⟩
      · cases hstep
    · cases hstep
  | cancel j =>
    simp only [State.proceed] at hstep ⊢
    split at hstep
    · rw [← Option.some.inj hstep]
      exact ⟨_, rfl, hset _⟩
    · rw [← Option.some.inj hstep]
      exact ⟨_, rfl, hset _⟩
    · cases hstep
  | _ => simp [State.proceed] at hstep

theorem Agree.setProducer {c i : ℕ} {s t : State K T E} (h : Agree c s t) (p : Producer K T E)
    (phase : ProducerPhase K T E) : Agree c (s.setProducer i p phase) (t.setProducer i p phase) :=
  ⟨h.tasks, h.futures, by rw [State.setProducer, State.setProducer, h.producers], h.length,
    h.callers⟩

theorem Agree.settle {c : ℕ} {s t : State K T E} (h : Agree c s t) (key : K)
    (outcome : Except E T) : Agree c (s.settle key outcome) (t.settle key outcome) := by
  simp only [State.settle, h.tasks, h.futures]
  split
  · exact h
  · split
    · exact ⟨rfl, rfl, h.producers, h.length, h.callers⟩
    · split
      · exact ⟨rfl, rfl, h.producers, h.length, h.callers⟩
      · exact ⟨rfl, rfl, h.producers, h.length, h.callers⟩

theorem Agree.produce {c i : ℕ} {s t u : State K T E} {p : Producer K T E} {e : Event K T E}
    (h : Agree c s t) (hstep : s.produce omitted i p e = some u) :
    ∃ v, t.produce omitted i p e = some v ∧ Agree c u v := by
  cases e with
  | start j =>
    simp only [State.produce] at hstep ⊢
    split at hstep
    · rw [← Option.some.inj hstep]
      exact ⟨_, rfl, h.setProducer p _⟩
    · cases hstep
  | produced j mapping =>
    simp only [State.produce] at hstep ⊢
    split at hstep
    · rw [← Option.some.inj hstep]
      exact ⟨_, rfl, h.setProducer p _⟩
    · cases hstep
  | fails j error =>
    simp only [State.produce] at hstep ⊢
    split at hstep
    · rw [← Option.some.inj hstep]
      exact ⟨_, rfl, h.setProducer p _⟩
    · cases hstep
  | complete j =>
    simp only [State.produce] at hstep ⊢
    split at hstep
    · rw [← Option.some.inj hstep]
      exact ⟨_, rfl, h.setProducer p _⟩
    · rw [← Option.some.inj hstep]
      exact ⟨_, rfl, (h.settle _ _).setProducer p _⟩
    · cases hstep
  | _ => simp [State.produce] at hstep

/-- What another task does after a call has left, it does as if the call were still there. -/
theorem Agree.step {c : ℕ} {s t u : State K T E} {e : Event K T E} (h : Agree c s t)
    (he : e.task ≠ some (.caller c)) (hstep : step omitted s e = some u) :
    ∃ v, step omitted t e = some v ∧ Agree c u v := by
  rcases step_cases hstep with ⟨keys, rfl⟩ | ⟨d, caller, htask, hd, hproceed⟩ |
    ⟨i, p, htask, hp, hproduce⟩
  · rw [← Option.some.inj hstep]
    refine ⟨_, rfl, h.tasks, h.futures, h.producers, by simp [h.length], fun d hd => ?_⟩
    simp only [List.getElem?_append, h.length, h.callers d hd]
  · have hdc : d ≠ c := by
      intro heq
      rw [htask, heq] at he
      exact he rfl
    obtain ⟨v, hv, hagree⟩ := h.proceed hproceed
    have ht : t.callers[d]? = some caller := by rw [h.callers d hdc, hd]
    refine ⟨v, ?_, hagree⟩
    rw [SingleFlight.step.eq_def]
    cases e <;> simp_all [Event.task]
  · obtain ⟨v, hv, hagree⟩ := h.produce hproduce
    have ht : t.producers[i]? = some p := by rw [h.producers, hp]
    refine ⟨v, ?_, hagree⟩
    rw [SingleFlight.step.eq_def]
    cases e <;> simp_all [Event.task]

theorem Agree.run {c : ℕ} {es : List (Event K T E)} {s u : State K T E}
    (hrun : Run (SingleFlight.step omitted) s es u) :
    ∀ {t : State K T E}, Agree c s t → (∀ e ∈ es, e.task ≠ some (.caller c)) →
      ∃ v, Run (SingleFlight.step omitted) t es v ∧ Agree c u v := by
  induction hrun with
  | nil s => exact fun {t} h _ => ⟨t, .nil t, h⟩
  | cons _ hstep _ ih =>
    intro t h hes
    obtain ⟨v, hv, hagree⟩ := h.step (hes _ List.mem_cons_self) hstep
    obtain ⟨w, hw, hlast⟩ := ih hagree fun e he => hes e (List.mem_cons_of_mem _ he)
    exact ⟨w, .cons trivial hv hw, hlast⟩

/-- Cancelling a call changes nothing but that call. -/
theorem cancel_agrees {c : ℕ} {t : State K T E} (h : SingleFlight.step omitted s (.cancel c) = some t) :
    Agree c s t := by
  obtain ⟨caller, hc, hproceed⟩ := Option.bind_eq_some_iff.mp h
  have hset : ∀ phase, Agree c s (s.setCaller c caller phase) := by
    intro phase
    refine ⟨rfl, rfl, rfl, by simp [State.setCaller], fun d hd => ?_⟩
    rw [State.setCaller, List.getElem?_set_ne hd.symm]
  simp only [State.proceed] at hproceed
  split at hproceed
  · rw [← Option.some.inj hproceed]
    exact hset _
  · rw [← Option.some.inj hproceed]
    exact hset _
  · cases hproceed

end

/-! ## Results -/

omit [DecidableEq K] in
theorem gather_keys {futures : List (Future K T E)} :
    ∀ {captured : List (K × ℕ × Bool)} {results : List (K × T × Bool)},
      gather futures captured = some results → results.map Prod.fst = captured.map Prod.fst
  | [], results, h => by
      rw [gather, Option.some.injEq] at h
      rw [← h]
      rfl
  | (key, f, joined) :: rest, results, h => by
      rw [gather] at h
      split at h
      · obtain ⟨others, hothers, rfl⟩ := Option.map_eq_some_iff.mp h
        rw [List.map_cons, List.map_cons, gather_keys hothers]
      · cases h

omit [DecidableEq K] in
theorem gather_mem {futures : List (Future K T E)} {k : K} {value : T} {joined : Bool} :
    ∀ {captured : List (K × ℕ × Bool)} {results : List (K × T × Bool)},
      gather futures captured = some results → (k, value, joined) ∈ results →
      ∃ f, (k, f, joined) ∈ captured ∧ (futures[f]?).bind Future.outcome = some (.ok value)
  | [], results, h, hmem => by
      rw [gather, Option.some.injEq] at h
      rw [← h] at hmem
      cases hmem
  | (key, f, j) :: rest, results, h, hmem => by
      rw [gather] at h
      split at h
      · rename_i v hv
        obtain ⟨others, hothers, rfl⟩ := Option.map_eq_some_iff.mp h
        rw [List.mem_cons, Prod.mk.injEq, Prod.mk.injEq] at hmem
        rcases hmem with ⟨rfl, rfl, rfl⟩ | hmem
        · exact ⟨f, List.mem_cons_self, hv⟩
        · obtain ⟨g, hg, hvalue⟩ := gather_mem hothers hmem
          exact ⟨g, List.mem_cons_of_mem _ hg, hvalue⟩
      · cases h

omit [DecidableEq K] in
/-- All captured futures have a value, or one has an exception, or one is open. -/
theorem gather_cases (futures : List (Future K T E)) : ∀ captured : List (K × ℕ × Bool),
    (∃ results, gather futures captured = some results) ∨
    (∃ (i : ℕ) (entry : K × ℕ × Bool) (error : E), captured[i]? = some entry ∧
      (futures[entry.2.1]?).bind Future.outcome = some (.error error)) ∨
    ∃ entry ∈ captured, (futures[entry.2.1]?).bind Future.outcome = none
  | [] => .inl ⟨[], rfl⟩
  | (key, f, joined) :: rest => by
      cases hf : (futures[f]?).bind Future.outcome with
      | none => exact .inr (.inr ⟨_, List.mem_cons_self, hf⟩)
      | some outcome =>
        cases outcome with
        | error error => exact .inr (.inl ⟨0, _, error, rfl, hf⟩)
        | ok value =>
          rcases gather_cases futures rest with ⟨results, h⟩ | ⟨i, entry, error, hi, he⟩ |
            ⟨entry, hmem, he⟩
          · refine .inl ⟨(key, value, joined) :: results, ?_⟩
            rw [gather, hf]
            simp only [h, Option.map_some]
          · exact .inr (.inl ⟨i + 1, entry, error, hi, he⟩)
          · exact .inr (.inr ⟨entry, List.mem_cons_of_mem _ hmem, he⟩)

theorem completionOf_ok {omitted : List K → E} {outcome : Except E (Dict K T)} {k : K} {value : T}
    (h : completionOf omitted outcome k = .ok value) :
    ∃ mapping, outcome = .ok mapping ∧ mapping.get? k = some value := by
  unfold completionOf at h
  split at h
  · rename_i mapping
    cases hk : mapping.get? k with
    | none => rw [hk] at h; cases h
    | some v =>
      rw [hk, Option.elim_some, Except.ok.injEq] at h
      exact ⟨mapping, rfl, by rw [hk, h]⟩
  · cases h

def Producer.isFinished (p : Producer K T E) : Prop := ∃ outcome, p.phase = .finished outcome

/-- Every promise of a `SingleFlight` in the state `s`. -/
structure DeliversOnce (omitted : List K → E) (s : State K T E) : Prop where
  /-- Factories that run at the same time cover different keys. -/
  disjoint : ∀ (i j : ℕ) p q k, s.producers[i]? = some p → s.producers[j]? = some q →
    p.phase = .running → q.phase = .running → k ∈ p.owned → k ∈ q.owned → i = j
  /-- A future is registered and open while its producer has not finished with it, or was settled
  once with what the factory of its producer gave for its key. -/
  once : ∀ (f : ℕ) future, s.futures[f]? = some future → ∃ p,
    s.producers[future.owner]? = some p ∧ future.key ∈ p.owned ∧
    ((future.outcome = none ∧ future.completions = 0 ∧ s.tasks.get? future.key = some f ∧
        ¬ p.isFinished) ∨
      ∃ outcome, p.outcome = some outcome ∧ future.completions = 1 ∧
        future.outcome = some (completionOf omitted outcome future.key))
  /-- Only the producer of a future changes it. -/
  owner : ∀ (e : Event K T E) t (f : ℕ) future, step omitted s e = some t →
    s.futures[f]? = some future → t.futures[f]? = some future ∨ e = .complete future.owner
  /-- A call that returns has a value for each of its keys: the one the producer of the captured
  future got from its factory, `joined` exactly where another call reserved the key. -/
  returned : ∀ (c : ℕ) caller results, s.callers[c]? = some caller →
    caller.phase = .returned results → results.map Prod.fst = caller.keys ∧
    ∀ k value joined, (k, value, joined) ∈ results → ∃ f future p mapping,
      (k, f, joined) ∈ caller.captured ∧ s.futures[f]? = some future ∧ future.key = k ∧
      s.producers[future.owner]? = some p ∧ p.outcome = some (.ok mapping) ∧
      mapping.get? k = some value ∧ (joined = false ↔ p.caller = c)
  /-- A call that raises raises the exception of the producer of a captured future. -/
  raised : ∀ (c : ℕ) caller error, s.callers[c]? = some caller → caller.phase = .raised error →
    ∃ k f joined future p outcome, (k, f, joined) ∈ caller.captured ∧
      s.futures[f]? = some future ∧ future.key = k ∧ s.producers[future.owner]? = some p ∧
      p.outcome = some outcome ∧ completionOf omitted outcome k = .error error
  /-- A waiting call can end, or waits for a producer that has not finished. -/
  waiting : ∀ (c : ℕ) caller, s.callers[c]? = some caller → caller.phase = .waiting →
    (∃ t, step omitted s (.deliver c) = some t) ∨ (∃ i t, step omitted s (.raise c i) = some t) ∨
    ∃ (i : ℕ) (p : Producer K T E), s.producers[i]? = some p ∧ ¬ p.isFinished
  /-- Whatever its factory does, an unfinished producer goes on. -/
  producing : ∀ (i : ℕ) p, s.producers[i]? = some p → ¬ p.isFinished →
    (∃ t, step omitted s (.start i) = some t) ∨ (∃ t, step omitted s (.complete i) = some t) ∨
    ((∀ mapping, ∃ t, step omitted s (.produced i mapping) = some t) ∧
      ∀ error, ∃ t, step omitted s (.fails i error) = some t)
  /-- With a call or with that call cancelled, everybody else can do and see the same. -/
  cancelled : ∀ (c : ℕ) t, step omitted s (.cancel c) = some t → ∀ (es : List (Event K T E)) u,
    (∀ e ∈ es, e.task ≠ some (.caller c)) →
    (Run (step omitted) s es u → ∃ v, Run (step omitted) t es v ∧ Agree c u v) ∧
    (Run (step omitted) t es u → ∃ v, Run (step omitted) s es v ∧ Agree c u v)
  /-- When no producer is at work, no key is registered. -/
  idle : (∀ (i : ℕ) p, s.producers[i]? = some p → p.isFinished) → s.tasks.entries = []

section
variable {omitted : List K → E} {s : State K T E}

theorem pending_unfinished {p : Producer K T E} {k : K} (h : k ∈ p.pending) : ¬ p.isFinished := by
  rintro ⟨outcome, hphase⟩
  rw [Producer.pending, hphase] at h
  cases h

theorem Sound.disjoint (h : Sound omitted s) {i j : ℕ} {p q : Producer K T E} {k : K}
    (hi : s.producers[i]? = some p) (hj : s.producers[j]? = some q) (hp : k ∈ p.pending)
    (hq : k ∈ q.pending) : i = j := by
  obtain ⟨_, _, hown⟩ := h.producers i p hi
  obtain ⟨_, _, hown'⟩ := h.producers j q hj
  obtain ⟨f, future, htask, hf, howner⟩ := hown k hp
  obtain ⟨f', future', htask', hf', howner'⟩ := hown' k hq
  rw [htask, Option.some.injEq] at htask'
  rw [htask', hf', Option.some.injEq] at hf
  rw [← howner, ← howner', hf]

theorem Sound.once (h : Sound omitted s) {f : ℕ} {future : Future K T E}
    (hf : s.futures[f]? = some future) : ∃ p,
    s.producers[future.owner]? = some p ∧ future.key ∈ p.owned ∧
    ((future.outcome = none ∧ future.completions = 0 ∧ s.tasks.get? future.key = some f ∧
        ¬ p.isFinished) ∨
      ∃ outcome, p.outcome = some outcome ∧ future.completions = 1 ∧
        future.outcome = some (completionOf omitted outcome future.key)) := by
  obtain ⟨p, hp, hkey, hstate⟩ := h.futures f future hf
  refine ⟨p, hp, hkey, ?_⟩
  cases hstate with
  | unsettled hopen hzero hmem htask => exact .inl ⟨hopen, hzero, htask, pending_unfinished hmem⟩
  | settled outcome hout hset hone => exact .inr ⟨outcome, hout, hone, hset⟩

/-- The producer of a settled future and how its factory ended. -/
theorem Sound.settled (h : Sound omitted s) {f : ℕ} {future : Future K T E} {o : Except E T}
    (hf : s.futures[f]? = some future) (ho : future.outcome = some o) : ∃ p outcome,
    s.producers[future.owner]? = some p ∧ p.outcome = some outcome ∧
      completionOf omitted outcome future.key = o := by
  obtain ⟨p, hp, _, ⟨hopen, _⟩ | ⟨outcome, hout, _, hset⟩⟩ := h.once hf
  · rw [hopen] at ho
    cases ho
  · rw [ho, Option.some.injEq] at hset
    exact ⟨p, outcome, hp, hout, hset.symm⟩

theorem Sound.returned (h : Sound omitted s) {c : ℕ} {caller : Caller K T E}
    {results : List (K × T × Bool)} (hc : s.callers[c]? = some caller)
    (hphase : caller.phase = .returned results) : results.map Prod.fst = caller.keys ∧
    ∀ k value joined, (k, value, joined) ∈ results → ∃ f future p mapping,
      (k, f, joined) ∈ caller.captured ∧ s.futures[f]? = some future ∧ future.key = k ∧
      s.producers[future.owner]? = some p ∧ p.outcome = some (.ok mapping) ∧
      mapping.get? k = some value ∧ (joined = false ↔ p.caller = c) := by
  have hsound := h.callers c caller hc
  have hended := hsound.ended
  rw [hphase] at hended
  refine ⟨(gather_keys hended.2).trans hended.1, fun k value joined hmem => ?_⟩
  obtain ⟨f, hcaptured, hvalue⟩ := gather_mem hended.2 hmem
  obtain ⟨future, p, hf, hkey, hp, hjoined⟩ := hsound.captured k f joined hcaptured
  rw [hf, Option.bind_some] at hvalue
  obtain ⟨p', outcome, hp', hout, hcompletion⟩ := h.settled hf hvalue
  rw [hp, Option.some.injEq] at hp'
  subst hp'
  obtain ⟨mapping, rfl, hget⟩ := completionOf_ok hcompletion
  exact ⟨f, future, p, mapping, hcaptured, hf, hkey, hp, hout, hkey ▸ hget, hjoined⟩

theorem Sound.raised (h : Sound omitted s) {c : ℕ} {caller : Caller K T E} {error : E}
    (hc : s.callers[c]? = some caller) (hphase : caller.phase = .raised error) :
    ∃ k f joined future p outcome, (k, f, joined) ∈ caller.captured ∧
      s.futures[f]? = some future ∧ future.key = k ∧ s.producers[future.owner]? = some p ∧
      p.outcome = some outcome ∧ completionOf omitted outcome k = .error error := by
  have hsound := h.callers c caller hc
  have hended := hsound.ended
  rw [hphase] at hended
  obtain ⟨k, f, joined, future, hcaptured, hf, hset⟩ := hended
  obtain ⟨future', p, hf', hkey, hp, _⟩ := hsound.captured k f joined hcaptured
  rw [hf, Option.some.injEq] at hf'
  subst hf'
  obtain ⟨p', outcome, hp', hout, hcompletion⟩ := h.settled hf hset
  exact ⟨k, f, joined, future, p', outcome, hcaptured, hf, hkey, hp', hout,
    hkey ▸ hcompletion⟩

theorem Sound.waiting (h : Sound omitted s) {c : ℕ} {caller : Caller K T E}
    (hc : s.callers[c]? = some caller) (hphase : caller.phase = .waiting) :
    (∃ t, step omitted s (.deliver c) = some t) ∨ (∃ i t, step omitted s (.raise c i) = some t) ∨
    ∃ (i : ℕ) (p : Producer K T E), s.producers[i]? = some p ∧ ¬ p.isFinished := by
  rcases gather_cases s.futures caller.captured with ⟨results, hr⟩ | ⟨i, entry, error, hi, he⟩ |
    ⟨⟨k, f, joined⟩, hmem, hopen⟩
  · exact .inl ⟨_, by simp [step, Event.task, hc, State.proceed, hphase, hr]; rfl⟩
  · refine .inr (.inl ⟨i, s.setCaller c caller (.raised error), ?_⟩)
    simp [step, Event.task, hc, State.proceed, hphase, hi, he]
  · obtain ⟨future, p, hf, _, hp, _⟩ := (h.callers c caller hc).captured k f joined hmem
    rw [hf, Option.bind_some] at hopen
    obtain ⟨q, hq, _, ⟨_, _, _, hunfinished⟩ | ⟨outcome, _, _, hset⟩⟩ := h.once hf
    · exact .inr (.inr ⟨_, q, hq, hunfinished⟩)
    · rw [hopen] at hset
      cases hset

theorem producing {i : ℕ} {p : Producer K T E} (hi : s.producers[i]? = some p)
    (hunfinished : ¬ p.isFinished) :
    (∃ t, step omitted s (.start i) = some t) ∨ (∃ t, step omitted s (.complete i) = some t) ∨
    ((∀ mapping, ∃ t, step omitted s (.produced i mapping) = some t) ∧
      ∀ error, ∃ t, step omitted s (.fails i error) = some t) := by
  cases hphase : p.phase with
  | created => exact .inl ⟨_, by simp [step, Event.task, hi, State.produce, hphase]; rfl⟩
  | running =>
    refine .inr (.inr ⟨fun mapping => ⟨s.setProducer i p
      (.completing (produceOutcome omitted p.owned mapping) p.owned), ?_⟩,
      fun error => ⟨s.setProducer i p (.completing (.error error) p.owned), ?_⟩⟩)
    · simp [step, Event.task, hi, State.produce, hphase]
    · simp [step, Event.task, hi, State.produce, hphase]
  | completing outcome rest =>
    right
    left
    cases rest with
    | nil => exact ⟨_, by simp [step, Event.task, hi, State.produce, hphase]; rfl⟩
    | cons key rest => exact ⟨_, by simp [step, Event.task, hi, State.produce, hphase]; rfl⟩
  | finished outcome => exact absurd ⟨outcome, hphase⟩ hunfinished

theorem Sound.idle (h : Sound omitted s)
    (hfinished : ∀ (i : ℕ) p, s.producers[i]? = some p → p.isFinished) : s.tasks.entries = [] := by
  by_contra hne
  obtain ⟨⟨k, f⟩, hmem⟩ := List.exists_mem_of_ne_nil _ hne
  obtain ⟨future, hf, _, hopen⟩ := h.registered k f (Dict.mem_entries.mp hmem)
  obtain ⟨p, hp, _, ⟨_, _, _, hunfinished⟩ | ⟨outcome, _, _, hset⟩⟩ := h.once hf
  · exact hunfinished (hfinished _ p hp)
  · rw [hopen] at hset
    cases hset

end

/-- In every state that calls, producers and cancellations reach from an idle `SingleFlight`. -/
theorem flights_deliver_once {omitted : List K → E} {es : List (Event K T E)} {s : State K T E}
    (hrun : Run (step omitted) State.empty es s) : DeliversOnce omitted s := by
  have h := sound_run hrun
  refine ⟨?_, fun f future hf => h.once hf, fun e t f future hstep hf =>
    settled_by_owner h hstep hf, fun c caller results hc hp => h.returned hc hp,
    fun c caller error hc hp => h.raised hc hp, fun c caller hc hp => h.waiting hc hp,
    fun i p hi hp => producing hi hp, ?_, h.idle⟩
  · intro i j p q k hi hj hp hq hkp hkq
    refine h.disjoint (k := k) hi hj ?_ ?_
    · rw [Producer.pending, hp]
      exact hkp
    · rw [Producer.pending, hq]
      exact hkq
  · intro c t hstep es u hes
    have hagree := cancel_agrees hstep
    exact ⟨fun hu => Agree.run hu hagree hes, fun hu => Agree.run hu hagree.symm hes⟩

end

/-! ## Two overlapping calls -/

/-- Call 0 reserves key 1, call 1 reserves key 0 and joins key 1, and key 0 gets a value. -/
def overlapping : List (Event ℕ ℕ ℕ) :=
  [.runMany [1], .runMany [0, 1], .lock 0, .lock 1, .start 0, .start 1,
    .produced 1 (Dict.empty.set 0 5), .complete 1]

/-- Call 0 is cancelled, and its producer still delivers key 1 to call 1. -/
theorem flights_deliver_once_overlapping : ∃ s : State ℕ ℕ ℕ, DeliversOnce (fun _ => 0) s ∧
    s.callers.map (fun caller => match caller.phase with
      | .returned results => some results
      | _ => none) = [none, some [(0, 5, false), (1, 6, true)]] := by
  have hend : (exec (step fun _ => 0) (State.empty : State ℕ ℕ ℕ) (overlapping ++
      [.cancel 0, .produced 0 (Dict.empty.set 1 6), .complete 0, .deliver 1])).map
      (fun s => s.callers.map fun caller => match caller.phase with
        | .returned results => some results
        | _ => none) = some [none, some [(0, 5, false), (1, 6, true)]] := by decide +kernel
  obtain ⟨s, hs, hphases⟩ := Option.map_eq_some_iff.mp hend
  exact ⟨s, flights_deliver_once (exec_run hs), hphases⟩

/-- Key 0 has a value, but the failure of key 1 is all that call 1 gets. -/
theorem value_withheld :
    ¬ ∀ (es : List (Event ℕ ℕ ℕ)) (s : State ℕ ℕ ℕ), Run (step fun _ => 0) State.empty es s →
      ∀ (c : ℕ) caller k f joined value, s.callers[c]? = some caller →
        (∃ error, caller.phase = .raised error) → (k, f, joined) ∈ caller.captured →
        (s.futures[f]?).bind Future.outcome = some (.ok value) →
        ∃ results, caller.phase = .returned results ∧ (k, value, joined) ∈ results := by
  intro h
  have hend : (exec (step fun _ => 0) (State.empty : State ℕ ℕ ℕ) (overlapping ++
      [.fails 0 7, .complete 0, .raise 1 1])).bind (fun s => (s.callers[1]?).map fun caller =>
        (match caller.phase with
          | .raised error => some error
          | _ => none, caller.captured,
          ((s.futures[1]?).bind Future.outcome).bind Except.toOption)) =
      some (some 7, [(0, 1, false), (1, 0, true)], some 5) := by decide +kernel
  obtain ⟨s, hs, hcaller⟩ := Option.bind_eq_some_iff.mp hend
  obtain ⟨caller, hc, hview⟩ := Option.map_eq_some_iff.mp hcaller
  rw [Prod.mk.injEq, Prod.mk.injEq] at hview
  obtain ⟨hphase, hcaptured, hvalue⟩ := hview
  have hraised : ∃ error, caller.phase = .raised error := by
    split at hphase
    · exact ⟨_, ‹_›⟩
    · cases hphase
  have houtcome : (s.futures[1]?).bind Future.outcome = some (.ok 5) := by
    obtain ⟨outcome, ho, hok⟩ := Option.bind_eq_some_iff.mp hvalue
    cases outcome with
    | error error => cases hok
    | ok value =>
      rw [Except.toOption, Option.some.injEq] at hok
      rw [ho, hok]
  obtain ⟨results, hreturned, _⟩ := h _ s (exec_run hs) 1 caller 0 1 false 5 hc hraised
    (by rw [hcaptured]; exact List.mem_cons_self) houtcome
  obtain ⟨error, hraise⟩ := hraised
  rw [hraise] at hreturned
  cases hreturned

end SingleFlight
end Coalestra
