import Coalestra.Concurrency.FixedWorkers

/-! # Ordered dispatch

What `run_bounded` and `map` promise in every state of every run: the caller ends after every worker
has, with the results in the order of the items or with an exception of an operation, and a run is
finite unless its caller is cancelled over and over. -/

namespace Coalestra
set_option autoImplicit false
set_option maxHeartbeats 250000

section
variable {A R E : Type}

namespace WorkerPool
variable {s t : WorkerPool A R E} {w : ℕ} {a b : DispatchWorker} {e : PoolEvent R E}

/-! ## The caller -/

/-- Where an exception of the call comes from: an operation, or a cancellation of the caller. -/
def Reason (s : WorkerPool A R E) (error : DispatchError E) : Prop :=
  error ∈ s.operationErrors ∨ error = .cancelledError ∧ s.callerCancelled = true

/-- The caller ends after every worker has. -/
structure Awaited (s : WorkerPool A R E) : Prop where
  failures : ∀ error ∈ s.failures, error ∈ s.operationErrors ∨
    error = .cancelledError ∧ s.stopping = true
  errors : ∀ error ∈ s.operationErrors, error ∈ s.failures
  cause : s.stopping = true → s.callerCancelled = true ∨
    ∃ error, s.caller = .reaping error ∨ s.caller = .raised error
  reason : ∀ error, s.caller = .reaping error ∨ s.caller = .raised error → s.Reason error
  returned : ∀ results, s.caller = .returned results →
    s.allDone = true ∧ s.failures = [] ∧ s.collect = some results
  raised : ∀ error, s.caller = .raised error → s.allDone = true

theorem mapM_some {α β : Type} {f : α → Option β} : ∀ {l : List α}, (∀ a ∈ l, ∃ b, f a = some b) →
    ∃ bs, l.mapM f = some bs
  | [], _ => ⟨[], rfl⟩
  | a :: l, h => by
      obtain ⟨b, hb⟩ := h a List.mem_cons_self
      obtain ⟨bs, hbs⟩ := mapM_some fun c hc => h c (List.mem_cons_of_mem a hc)
      exact ⟨b :: bs, by rw [List.mapM_cons, hb, hbs]; rfl⟩

theorem mapM_getElem? {α β : Type} {f : α → Option β} : ∀ {l : List α} {bs : List β},
    l.mapM f = some bs → bs.length = l.length ∧ ∀ i : ℕ, bs[i]? = l[i]?.bind f
  | [], bs, h => by
      rw [List.mapM_nil] at h
      cases h
      exact ⟨rfl, fun _ => rfl⟩
  | a :: l, bs, h => by
      rw [List.mapM_cons] at h
      obtain ⟨b, hb, h⟩ := Option.bind_eq_some_iff.mp h
      obtain ⟨cs, hcs, h⟩ := Option.bind_eq_some_iff.mp h
      cases h
      obtain ⟨hlength, hget⟩ := mapM_getElem? hcs
      refine ⟨congrArg (· + 1) hlength, fun i => ?_⟩
      cases i with
      | zero => exact hb.symm
      | succ i => exact hget i

/-- When every worker has returned, every index has its answer. -/
theorem Placed.complete (h : Placed s) (hmax : 1 ≤ s.maxTasks) (hdone : s.allDone = true)
    (hfailures : s.failures = []) :
    ∃ results, s.collect = some results ∧ results.length = s.ordered.length ∧
      (∀ i result, results[i]? = some result ↔ (i, result) ∈ s.answers) ∧
      ∀ i, s.calls.count i = (if i < s.ordered.length then 1 else 0) ∧
        (s.answers.map Prod.fst).count i = if i < s.ordered.length then 1 else 0 := by
  have hworker : ∀ a ∈ s.workers, a = .returned := by
    intro a ha
    have hadone := List.all_eq_true.mp hdone a ha
    cases a with
    | returned => rfl
    | raised => exact absurd hfailures (h.failed (.inr (.inl ha)))
    | cancelled => exact absurd hfailures (h.failed (.inr (.inr ha)))
    | _ => cases hadone
  have hlost : s.lost = [] := by
    by_contra hne
    exact h.failed (.inl hne) hfailures
  have hnext : s.nextIndex = s.ordered.length := by
    have hsize := h.size
    cases hworkers : s.workers with
    | nil =>
      have hnext := h.next
      rw [hworkers, List.length_nil] at hsize
      omega
    | cons a as =>
      refine h.finished ?_
      rw [← hworker a (by rw [hworkers]; exact List.mem_cons_self), hworkers]
      exact List.mem_cons_self
  have hempty : ∀ p : DispatchWorker → Bool, p .returned = false → s.stations.countP p = 0 := by
    intro p hp
    refine List.countP_eq_zero.mpr fun a ha => ?_
    rw [stations, hlost, List.append_nil] at ha
    rw [hworker a ha, hp]
    exact Bool.false_ne_true
  have hanswers : ∀ i, (s.answers.map Prod.fst).count i =
      if i < s.ordered.length then 1 else 0 := by
    intro i
    have hplaced := h.placed i
    rw [hempty _ rfl, Nat.zero_add, hnext] at hplaced
    exact hplaced
  have hresult : ∀ i ∈ List.range s.ordered.length, ∃ result, s.results.get? i = some result := by
    intro i hi
    have hcount := hanswers i
    rw [if_pos (List.mem_range.mp hi)] at hcount
    obtain ⟨⟨j, result⟩, hmem, rfl⟩ :=
      List.mem_map.mp (List.count_pos_iff.mp (hcount ▸ Nat.one_pos))
    exact ⟨result, (h.answered _ _).mpr hmem⟩
  obtain ⟨results, hresults⟩ := mapM_some hresult
  obtain ⟨hlength, hget⟩ := mapM_getElem? hresults
  rw [List.length_range] at hlength
  refine ⟨results, hresults, hlength, fun i result => ?_, fun i => ⟨?_, hanswers i⟩⟩
  · rw [hget, ← h.answered]
    by_cases hi : i < s.ordered.length
    · rw [List.getElem?_range hi]
      rfl
    · rw [List.getElem?_eq_none (by rw [List.length_range]; omega)]
      refine ⟨by simp, fun hr => ?_⟩
      have hcount := hanswers i
      rw [if_neg hi, List.count_eq_zero] at hcount
      exact absurd (List.mem_map_of_mem ((h.answered i result).mp hr)) hcount
  · rw [h.called, hempty _ rfl, Nat.zero_add, hanswers]

theorem worker_open (hdone : s.allDone = true) (hw : s.workers[w]? = some a) : a.done = true :=
  List.all_eq_true.mp hdone a (List.mem_of_getElem? hw)

/-- The moves of the workers while the caller waits. -/
theorem Awaited.work (h : Awaited s) (hcaller : t.caller = s.caller)
    (hopen : s.allDone = false) (hcancelled : t.callerCancelled = s.callerCancelled)
    (hstopping : t.stopping = s.stopping)
    (hfailures : ∀ error ∈ t.failures, error ∈ t.operationErrors ∨
      error = .cancelledError ∧ t.stopping = true)
    (herrors : ∀ error ∈ t.operationErrors, error ∈ t.failures)
    (hkept : ∀ error ∈ s.operationErrors, error ∈ t.operationErrors) : Awaited t := by
  refine ⟨hfailures, herrors, ?_, ?_, ?_, ?_⟩
  · rw [hstopping, hcancelled, hcaller]
    exact h.cause
  · rw [hcaller]
    intro error herror
    rw [Reason, hcancelled]
    exact (h.reason error herror).imp (hkept error) id
  · rw [hcaller]
    intro results hresults
    rw [(h.returned results hresults).1] at hopen
    cases hopen
  · rw [hcaller]
    intro error herror
    rw [h.raised error herror] at hopen
    cases hopen

theorem Awaited.abort {error : DispatchError E} (h : Awaited s) (hreason : s.Reason error) :
    Awaited (s.abort error) := by
  refine ⟨fun e he => ?_, h.errors, fun _ => .inr ⟨error, .inl rfl⟩, ?_, nofun, nofun⟩
  · exact (h.failures e he).imp id fun hc => ⟨hc.1, rfl⟩
  · rintro e (he | he)
    · cases he
      exact hreason
    · cases he

theorem takeNext_same (s : WorkerPool A R E) (w : ℕ) : (s.takeNext w).caller = s.caller ∧
    (s.takeNext w).callerCancelled = s.callerCancelled ∧ (s.takeNext w).stopping = s.stopping ∧
    (s.takeNext w).failures = s.failures ∧ (s.takeNext w).operationErrors = s.operationErrors ∧
    (s.takeNext w).threaded = s.threaded ∧ (s.takeNext w).maxTasks = s.maxTasks ∧
    (s.takeNext w).ordered = s.ordered := by
  unfold WorkerPool.takeNext
  split
  · split <;> exact ⟨rfl, rfl, rfl, rfl, rfl, rfl, rfl, rfl⟩
  · exact ⟨rfl, rfl, rfl, rfl, rfl, rfl, rfl, rfl⟩

theorem takeNext_answers (s : WorkerPool A R E) (w : ℕ) :
    (s.takeNext w).answers = s.answers := by
  unfold WorkerPool.takeNext
  split
  · split <;> rfl
  · rfl

/-- An operation that returns answers for the index its worker has. -/
def answering (s : WorkerPool A R E) : PoolEvent R E → List (ℕ × R)
  | .returns w result =>
    match s.workers[w]? with
    | some (.operating i) => [(i, result)]
    | _ => []
  | _ => []

theorem step_answers (hs : s.step e = some t) : t.answers = s.answers ++ s.answering e := by
  cases e with
  | returns w result =>
    cases hw : s.workers[w]? with
    | none => simp only [step, hw, reduceCtorEq] at hs
    | some a =>
      cases a with
      | operating i =>
        rw [step_returns hw, Option.some.injEq] at hs
        subst hs
        rw [takeNext_answers, answering, hw]
      | _ => simp only [step, hw, reduceCtorEq] at hs
  | begins w =>
    simp only [step] at hs
    split at hs
    · split at hs
      · cases hs
        exact (List.append_nil _).symm
      · cases hs
        exact (takeNext_answers _ _).trans (List.append_nil _).symm
    · cases hs
  | _ =>
    simp only [step] at hs
    repeat' split at hs
    all_goals first
      | cases hs
        exact (List.append_nil _).symm
      | cases hs

/-- A worker that has not ended keeps the pool open. -/
theorem open_of_worker (hw : s.workers[w]? = some a) (ha : a.done = false) : s.allDone = false := by
  cases hdone : s.allDone with
  | false => rfl
  | true =>
    rw [worker_open hdone hw] at ha
    cases ha

theorem Awaited.next (h : Awaited s) (hopen : s.allDone = false) {u : WorkerPool A R E}
    (hcaller : u.caller = s.caller) (hcancelled : u.callerCancelled = s.callerCancelled)
    (hstopping : u.stopping = s.stopping) (hfailures : u.failures = s.failures)
    (herrors : u.operationErrors = s.operationErrors) : Awaited (u.takeNext w) := by
  obtain ⟨h₁, h₂, h₃, h₄, h₅, -⟩ := takeNext_same u w
  refine h.work (h₁.trans hcaller) hopen (h₂.trans hcancelled) (h₃.trans hstopping) ?_ ?_ ?_
  · rw [h₃, h₄, h₅, hstopping, hfailures, herrors]
    exact h.failures
  · rw [h₄, h₅, hfailures, herrors]
    exact h.errors
  · rw [h₅, herrors]
    exact fun _ he => he

theorem awaited_step (hp : Placed s) (hmax : 1 ≤ s.maxTasks) (h : Awaited s)
    (hs : s.step e = some t) : Awaited t := by
  cases e with
  | begins w =>
    simp only [step] at hs
    split at hs
    · rename_i hw
      have hopen := open_of_worker hw rfl
      split at hs
      · rename_i hstop
        cases hs
        refine h.work rfl hopen rfl rfl (fun error he => ?_) (fun error he => ?_) fun _ he => he
        · rcases List.mem_append.mp he with he | he
          · exact h.failures error he
          · exact .inr ⟨List.mem_singleton.mp he, hstop⟩
        · exact List.mem_append_left _ (h.errors error he)
      · cases hs
        exact h.next hopen rfl rfl rfl rfl rfl
    · cases hs
  | calls w =>
    simp only [step] at hs
    split at hs
    · rename_i i hw
      split at hs
      · cases hs
        exact h.work rfl (open_of_worker hw rfl) rfl rfl h.failures h.errors fun _ he => he
      · cases hs
    · cases hs
  | returns w result =>
    cases hw : s.workers[w]? with
    | none => simp only [step, hw, reduceCtorEq] at hs
    | some a =>
      cases a with
      | operating i =>
        rw [step_returns hw, Option.some.injEq] at hs
        subst hs
        exact h.next (open_of_worker hw rfl) rfl rfl rfl rfl rfl
      | _ => simp only [step, hw, reduceCtorEq] at hs
  | raises w error leaving =>
    simp only [step] at hs
    split at hs
    · rename_i a hw
      split at hs
      · cases hs
      · rename_i hnot
        cases hs
        have hadone : a.done = false := by
          rw [not_or, Bool.not_eq_false] at hnot
          cases a <;> first | rfl | cases hnot.1
        refine h.work rfl (open_of_worker hw hadone) rfl rfl (fun f hf => ?_) (fun f hf => ?_)
          fun f hf => List.mem_append_left _ hf
        · rcases List.mem_append.mp hf with hf | hf
          · exact (h.failures f hf).imp (List.mem_append_left _) id
          · exact .inl (List.mem_append_right _ hf)
        · rcases List.mem_append.mp hf with hf | hf
          · exact List.mem_append_left _ (h.errors f hf)
          · exact List.mem_append_right _ hf
    · cases hs
  | threadEnds =>
    simp only [step] at hs
    split at hs
    · cases hs
    · cases hs
      exact ⟨h.failures, h.errors, h.cause, h.reason, h.returned, h.raised⟩
  | wake asCancelled =>
    simp only [step] at hs
    split at hs
    · rename_i hcaller
      split at hs
      · split at hs
        · rename_i hcancelled
          cases hs
          rw [Bool.and_eq_true] at hcancelled
          exact h.abort (.inr ⟨rfl, hcancelled.1⟩)
        · cases hs
      · split at hs
        · rename_i error rest hfailures
          cases hs
          refine h.abort ?_
          rcases h.failures error (by rw [hfailures]; exact List.mem_cons_self) with he | ⟨he, hst⟩
          · exact .inl he
          · rcases h.cause hst with hc | ⟨f, hf | hf⟩
            · exact .inr ⟨he, hc⟩
            · rw [hcaller] at hf
              cases hf
            · rw [hcaller] at hf
              cases hf
        · rename_i hfailures
          split at hs
          · rename_i hdone
            split at hs
            · rename_i hcancelled
              cases hs
              exact h.abort (.inr ⟨rfl, hcancelled⟩)
            · obtain ⟨results, hresults, -⟩ := hp.complete hmax hdone hfailures
              simp only [hresults, Option.some.injEq] at hs
              subst hs
              refine ⟨h.failures, h.errors, fun hst => ?_, ?_, ?_, by simp⟩
              · rcases h.cause hst with hc | ⟨f, hf | hf⟩
                · exact .inl hc
                · rw [hcaller] at hf
                  cases hf
                · rw [hcaller] at hf
                  cases hf
              · rintro f (hf | hf) <;> cases hf
              · intro rs hrs
                cases hrs
                exact ⟨hdone, hfailures, hresults⟩
          · cases hs
    · cases hs
  | reap =>
    simp only [step] at hs
    split at hs
    · rename_i error hcaller
      split at hs
      · rename_i hdone
        cases hs
        refine ⟨h.failures, h.errors, fun _ => .inr ⟨error, .inr rfl⟩, ?_, by simp, fun _ _ => hdone⟩
        rintro f (hf | hf)
        · cases hf
        · cases hf
          exact h.reason error (.inl hcaller)
      · cases hs
    · cases hs
  | cancelCaller =>
    simp only [step] at hs
    split at hs
    · rename_i hcaller
      cases hs
      refine ⟨fun f hf => ?_, h.errors, fun _ => .inl rfl, ?_, ?_, ?_⟩
      · exact (h.failures f hf).imp id fun hc => ⟨hc.1, rfl⟩
      · rintro f (hf | hf) <;> rw [hcaller] at hf <;> cases hf
      · intro rs hrs
        rw [hcaller] at hrs
        cases hrs
      · intro f hf
        rw [hcaller] at hf
        cases hf
    · rename_i error hcaller
      cases hs
      refine ⟨h.failures, h.errors, fun _ => .inl rfl, ?_, by simp, by simp⟩
      rintro f (hf | hf)
      · cases hf
        exact .inr ⟨rfl, rfl⟩
      · cases hf
    · cases hs

/-! ## Whole runs -/

/-- What the runs of a call with these arguments keep. -/
structure Dispatching (threaded : Bool) (maxTasks : ℕ) (items : List A) (s : WorkerPool A R E) :
    Prop where
  threaded_eq : s.threaded = threaded
  maxTasks_eq : s.maxTasks = maxTasks
  ordered_eq : s.ordered = items
  placed : Placed s
  counted : Counted s
  awaited : Awaited s

section
variable {threaded : Bool} {maxTasks : ℕ} {items : List A} {es : List (PoolEvent R E)}

theorem step_config (hs : s.step e = some t) :
    t.threaded = s.threaded ∧ t.maxTasks = s.maxTasks ∧ t.ordered = s.ordered := by
  have hnext : ∀ (u : WorkerPool A R E) (w : ℕ), u.threaded = s.threaded →
      u.maxTasks = s.maxTasks → u.ordered = s.ordered → (u.takeNext w).threaded = s.threaded ∧
        (u.takeNext w).maxTasks = s.maxTasks ∧ (u.takeNext w).ordered = s.ordered := by
    intro u w h₁ h₂ h₃
    obtain ⟨-, -, -, -, -, h₁', h₂', h₃'⟩ := takeNext_same u w
    exact ⟨h₁'.trans h₁, h₂'.trans h₂, h₃'.trans h₃⟩
  cases e with
  | returns w result =>
    simp only [step] at hs
    split at hs
    · cases hs
      exact hnext _ w rfl rfl rfl
    · cases hs
  | begins w =>
    simp only [step] at hs
    split at hs
    · split at hs
      · cases hs
        exact ⟨rfl, rfl, rfl⟩
      · cases hs
        exact hnext _ w rfl rfl rfl
    · cases hs
  | _ =>
    simp only [step] at hs
    repeat' split at hs
    all_goals first
      | cases hs
        exact ⟨rfl, rfl, rfl⟩
      | cases hs

theorem new_dispatching (threaded : Bool) (maxTasks : ℕ) (items : List A) :
    Dispatching threaded maxTasks items (new threaded maxTasks items : WorkerPool A R E) := by
  have hcount : ∀ p : DispatchWorker → Bool, p .created = false →
      (List.replicate (min maxTasks items.length) DispatchWorker.created).countP p = 0 := by
    intro p hp
    refine List.countP_eq_zero.mpr fun a ha => ?_
    rw [List.eq_of_mem_replicate ha, hp]
    exact Bool.false_ne_true
  refine ⟨rfl, rfl, rfl, ?_, ?_, ?_⟩
  · refine ⟨List.length_replicate, Nat.zero_le _, fun i => ?_, fun i => ?_,
      fun i r => ⟨fun h => (by cases h), fun h => (by cases h)⟩, fun hr => ?_, ?_⟩
    · rw [stations, show (new threaded maxTasks items : WorkerPool A R E).lost = [] from rfl,
        List.append_nil]
      exact hcount _ rfl
    · rw [stations, show (new threaded maxTasks items : WorkerPool A R E).lost = [] from rfl,
        List.append_nil]
      exact (hcount _ rfl).symm
    · cases List.eq_of_mem_replicate hr
    · rintro (hl | hr | hr)
      · exact absurd rfl hl
      · cases List.eq_of_mem_replicate hr
      · cases List.eq_of_mem_replicate hr
  · refine ⟨(hcount _ rfl).symm, ?_, fun _ => rfl⟩
    exact (congrArg (· + 0) (hcount DispatchWorker.operates rfl)).trans_le (Nat.zero_le _)
  · have hcaller : ∀ error, (new threaded maxTasks items : WorkerPool A R E).caller ≠
        .reaping error ∧ (new threaded maxTasks items : WorkerPool A R E).caller ≠
          .raised error := by
      intro error
      cases items <;> simp [new]
    refine ⟨fun error h => (by cases h), fun error h => (by cases h), fun h => (by cases h),
      fun error he => ?_, fun results hr => ?_, fun error he => ?_⟩
    · exact he.elim (fun he => absurd he (hcaller error).1) fun he => absurd he (hcaller error).2
    · cases items with
      | nil =>
        cases hr
        refine ⟨?_, rfl, rfl⟩
        simp [allDone, new]
      | cons item items => cases hr
    · exact absurd he (hcaller error).2

theorem dispatching_run (hmax : 1 ≤ maxTasks) (hrun : Run step (new threaded maxTasks items) es s) :
    Dispatching threaded maxTasks items s :=
  hrun.invariant (Dispatching threaded maxTasks items)
    (fun _ _ _ _ hI hs => by
      obtain ⟨h₁, h₂, h₃⟩ := step_config hs
      exact ⟨h₁.trans hI.threaded_eq, h₂.trans hI.maxTasks_eq, h₃.trans hI.ordered_eq,
        placed_step hI.placed hs, counted_step hI.placed hI.counted hs,
        awaited_step hI.placed (hI.maxTasks_eq ▸ hmax) hI.awaited hs⟩)
    (new_dispatching threaded maxTasks items)

/-- The errors and the cancellations that the state remembers are those of the run. -/
theorem history (hrun : Run step (new threaded maxTasks items) es s) :
    (∀ error, error ∈ s.operationErrors ↔ ∃ w leaving, .raises w error leaving ∈ es) ∧
      (s.callerCancelled = true ↔ .cancelCaller ∈ es) := by
  refine hrun.history (P := fun es s =>
    (∀ error, error ∈ s.operationErrors ↔ ∃ w leaving, .raises w error leaving ∈ es) ∧
      (s.callerCancelled = true ↔ .cancelCaller ∈ es)) ⟨fun error => ?_, ?_⟩ ?_
  · simp [new]
  · simp [new]
  · rintro ls t e u _ _ hs ⟨herrors, hcancelled⟩
    have hsame : (∀ w error leaving, e ≠ .raises w error leaving) → e ≠ .cancelCaller →
        u.operationErrors = t.operationErrors → u.callerCancelled = t.callerCancelled →
        (∀ error, error ∈ u.operationErrors ↔
          ∃ w leaving, .raises w error leaving ∈ ls ++ [e]) ∧
        (u.callerCancelled = true ↔ .cancelCaller ∈ ls ++ [e]) := by
      intro hraises hcancel h₁ h₂
      refine ⟨fun error => ?_, ?_⟩
      · rw [h₁, herrors]
        refine exists_congr fun w => exists_congr fun leaving => ?_
        rw [List.mem_append, List.mem_singleton]
        exact ⟨.inl, fun h => h.resolve_right fun h => hraises _ _ _ h.symm⟩
      · rw [h₂, hcancelled, List.mem_append, List.mem_singleton]
        exact ⟨.inl, fun h => h.resolve_right fun h => hcancel h.symm⟩
    cases e with
    | raises w error leaving =>
      simp only [step] at hs
      split at hs
      · split at hs
        · cases hs
        · cases hs
          refine ⟨fun f => ?_, ?_⟩
          · simp only [List.mem_append, List.mem_singleton, herrors, PoolEvent.raises.injEq]
            constructor
            · rintro (⟨w', l, h⟩ | rfl)
              · exact ⟨w', l, .inl h⟩
              · exact ⟨w, leaving, .inr ⟨rfl, rfl, rfl⟩⟩
            · rintro ⟨w', l, h | ⟨-, h, -⟩⟩
              · exact .inl ⟨w', l, h⟩
              · exact .inr h
          · rw [List.mem_append, List.mem_singleton]
            exact hcancelled.trans ⟨.inl, fun h => h.resolve_right (by simp)⟩
      · cases hs
    | cancelCaller =>
      simp only [step] at hs
      split at hs
      all_goals first
        | cases hs
          refine ⟨fun f => ?_, fun _ => by simp, fun _ => rfl⟩
          simp only [List.mem_append, List.mem_singleton, reduceCtorEq, or_false]
          exact herrors f
        | cases hs
    | begins w =>
      simp only [step] at hs
      split at hs
      · split at hs
        · cases hs
          exact hsame (by simp) (by simp) rfl rfl
        · cases hs
          obtain ⟨-, h₂, -, -, h₅, -⟩ := takeNext_same
            { t with activeDispatchWorkers := t.activeDispatchWorkers + 1 } w
          exact hsame (by simp) (by simp) h₅ h₂
      · cases hs
    | returns w result =>
      cases hw : t.workers[w]? with
      | none => simp only [step, hw, reduceCtorEq] at hs
      | some a =>
        cases a with
        | operating i =>
          rw [step_returns hw, Option.some.injEq] at hs
          subst hs
          obtain ⟨-, h₂, -, -, h₅, -⟩ := takeNext_same { t.setWorker w .created with
            results := t.results.set i result
            answers := t.answers ++ [(i, result)] } w
          exact hsame (by simp) (by simp) h₅ h₂
        | _ => simp only [step, hw, reduceCtorEq] at hs
    | _ =>
      simp only [step] at hs
      repeat' split at hs
      all_goals first
        | cases hs
          exact hsame (by simp) (by simp) rfl rfl
        | cases hs

end

/-! ## The end of a run -/

/-- What a worker may still do with the index it has. -/
def rank : DispatchWorker → ℕ
  | .created => 1
  | .awaiting _ => 3
  | .operating _ => 2
  | _ => 0

def callerRank : DispatchCaller R E → ℕ
  | .gathering => 2
  | .reaping _ => 1
  | _ => 0

/-- Every step but a cancellation of the caller uses some of it. -/
def potential (s : WorkerPool A R E) : ℕ :=
  4 * (s.ordered.length - s.nextIndex) + (s.workers.map rank).sum + callerRank s.caller + s.threads

theorem potential_takeNext (hw : s.workers[w]? = some .created) :
    (s.takeNext w).potential + 1 ≤ s.potential := by
  have hsum := fun b => sum_map_set rank (b := b) hw
  unfold WorkerPool.takeNext
  split
  · split
    · have := hsum (.awaiting s.nextIndex)
      simp only [potential, setWorker, rank] at this ⊢
      omega
    · have := hsum (.operating s.nextIndex)
      simp only [potential, setWorker, rank] at this ⊢
      omega
  · have := hsum .returned
    simp only [potential, setWorker, rank] at this ⊢
    omega

theorem step_potential (he : e ≠ .cancelCaller) (hs : s.step e = some t) :
    t.potential + 1 ≤ s.potential := by
  cases e with
  | begins w =>
    simp only [step] at hs
    split at hs
    · rename_i hw
      split at hs
      · cases hs
        have := sum_map_set rank (b := .cancelled) hw
        simp only [potential, WorkerPool.fail, setWorker, DispatchError.ending, rank] at this ⊢
        omega
      · cases hs
        exact potential_takeNext (s := { s with
          activeDispatchWorkers := s.activeDispatchWorkers + 1 }) hw
    · cases hs
  | calls w =>
    simp only [step] at hs
    split at hs
    · rename_i i hw
      split at hs
      · cases hs
        have := sum_map_set rank (b := .operating i) hw
        simp only [potential, setWorker, rank] at this ⊢
        omega
      · cases hs
    · cases hs
  | returns w result =>
    cases hw : s.workers[w]? with
    | none => simp only [step, hw, reduceCtorEq] at hs
    | some a =>
      cases a with
      | operating i =>
        rw [step_returns hw, Option.some.injEq] at hs
        subst hs
        have hsum := sum_map_set rank (b := .created) hw
        have hnext := potential_takeNext (s := { s.setWorker w .created with
          results := s.results.set i result
          answers := s.answers ++ [(i, result)] }) (w := w)
          (List.getElem?_set_self (List.getElem?_eq_some_iff.mp hw).1)
        simp only [potential, setWorker, rank] at hsum hnext ⊢
        omega
      | _ => simp only [step, hw, reduceCtorEq] at hs
  | raises w error leaving =>
    simp only [step] at hs
    split at hs
    · rename_i a hw
      split at hs
      · cases hs
      · rename_i hnot
        cases hs
        rw [not_or, Bool.not_eq_false] at hnot
        have hsum := sum_map_set rank (b := error.ending) hw
        have hend : rank error.ending = 0 := by cases error <;> rfl
        have hrank : 2 ≤ rank a := by
          cases a with
          | awaiting i => simp [rank]
          | operating i => simp [rank]
          | _ => cases hnot.1
        simp only [potential, WorkerPool.fail, setWorker]
        split <;> omega
    · cases hs
  | threadEnds =>
    simp only [step] at hs
    split at hs
    · cases hs
    · cases hs
      simp only [potential]
      omega
  | wake asCancelled =>
    simp only [step] at hs
    split at hs
    · rename_i hcaller
      have hrank : callerRank s.caller = 2 := by rw [hcaller]; rfl
      repeat' split at hs
      all_goals first
        | cases hs
          simp only [potential, WorkerPool.abort, hrank]
          simp only [callerRank]
          omega
        | cases hs
    · cases hs
  | reap =>
    simp only [step] at hs
    split at hs
    · rename_i error hcaller
      have hrank : callerRank s.caller = 1 := by rw [hcaller]; rfl
      split at hs
      · cases hs
        simp only [potential, hrank]
        simp only [callerRank]
        omega
      · cases hs
    · cases hs
  | cancelCaller => exact absurd rfl he

theorem length_le {es : List (PoolEvent R E)} (hes : .cancelCaller ∉ es)
    (hrun : Run step s es t) : es.length + t.potential ≤ s.potential := by
  induction hrun with
  | nil s => simp
  | cons _ hs _ ih =>
    have hrest := ih fun h => hes (List.mem_cons_of_mem _ h)
    have := step_potential (fun h => hes (h ▸ List.mem_cons_self)) hs
    rw [List.length_cons]
    omega

/-- The operation of some worker is in progress, and the worker takes whatever it returns. -/
def Operating (s : WorkerPool A R E) : Prop :=
  ∃ w i, s.workers[w]? = some (.operating i) ∧ ∀ result, (s.step (.returns w result)).isSome = true

/-- The step is not left to an operation, nor to whoever cancels. -/
def internal : PoolEvent R E → Bool
  | .begins _ => true
  | .calls _ => true
  | .threadEnds => true
  | .wake _ => true
  | .reap => true
  | _ => false

def ended : DispatchCaller R E → Bool
  | .returned _ => true
  | .raised _ => true
  | _ => false

theorem operating_of (hw : ∃ i, .operating i ∈ s.workers) : s.Operating := by
  obtain ⟨i, hi⟩ := hw
  obtain ⟨w, hw⟩ := List.getElem?_of_mem hi
  exact ⟨w, i, hw, fun result => by rw [step_returns hw]; rfl⟩

/-- A call that has not ended waits for an operation, or can go on by itself. -/
theorem proceeds (hp : Placed s) (hmax : 1 ≤ s.maxTasks) :
    ended s.caller = true ∨ s.Operating ∨ ∃ e, internal e = true ∧ (s.step e).isSome = true := by
  cases hdone : s.allDone with
  | false =>
    obtain ⟨a, ha, hopen⟩ : ∃ a ∈ s.workers, a.done = false := by
      rw [allDone, List.all_eq_false] at hdone
      obtain ⟨a, ha, hnot⟩ := hdone
      exact ⟨a, ha, by simpa using hnot⟩
    obtain ⟨w, hw⟩ := List.getElem?_of_mem ha
    cases a with
    | created =>
      refine .inr (.inr ⟨.begins w, rfl, ?_⟩)
      simp only [step, hw]
      split <;> rfl
    | awaiting i =>
      by_cases hroom : s.inProgress < s.maxTasks
      · refine .inr (.inr ⟨.calls w, rfl, ?_⟩)
        simp only [step, hw, if_pos hroom]
        rfl
      · -- All slots are taken: by a worker, or by a copy that was left behind.
        by_cases hthreads : s.threads = 0
        · have hpos : 0 < s.workers.countP DispatchWorker.operates := by
            simp only [inProgress] at hroom
            omega
          obtain ⟨b, hb, hop⟩ := List.countP_pos_iff.mp hpos
          cases b with
          | operating j => exact .inr (.inl (operating_of ⟨j, hb⟩))
          | _ => cases hop
        · refine .inr (.inr ⟨.threadEnds, rfl, ?_⟩)
          simp only [step, if_neg hthreads]
          rfl
    | operating i => exact .inr (.inl (operating_of ⟨i, ha⟩))
    | _ => cases hopen
  | true =>
    cases hcaller : s.caller with
    | gathering =>
      refine .inr (.inr ⟨.wake false, rfl, ?_⟩)
      simp only [step, hcaller, Bool.false_eq_true, if_false]
      cases hfailures : s.failures with
      | cons error rest => rfl
      | nil =>
        obtain ⟨results, hresults, -⟩ := hp.complete hmax hdone hfailures
        simp only [hdone, if_true, hresults]
        split <;> rfl
    | reaping error =>
      refine .inr (.inr ⟨.reap, rfl, ?_⟩)
      simp only [step, hcaller, hdone, if_true]
      rfl
    | _ => exact .inl rfl

/-- What a dispatch over `items` with at most `maxTasks` workers promises in every state of a run
`es`. -/
structure OrderedMap (items : List A) (maxTasks : ℕ) (es : List (PoolEvent R E))
    (s : WorkerPool A R E) : Prop where
  bounded : s.inProgress ≤ maxTasks
  once : s.calls.Nodup ∧ ∀ i ∈ s.calls, i < items.length
  returned : ∀ results, s.caller = .returned results →
    s.allDone = true ∧ s.calls.Perm (List.range items.length) ∧
      (s.answers.map Prod.fst).Perm (List.range items.length) ∧ results.length = items.length ∧
      ∀ i result, results[i]? = some result ↔ (i, result) ∈ s.answers
  raised : ∀ error, s.caller = .raised error → s.allDone = true ∧
    ((∃ w leaving, .raises w error leaving ∈ es) ∨
      error = .cancelledError ∧ .cancelCaller ∈ es)
  failing : (∃ w error leaving, .raises w error leaving ∈ es) →
    ∀ results, s.caller ≠ .returned results
  finite : .cancelCaller ∉ es → es.length ≤ 4 * items.length + min maxTasks items.length + 2
  proceeds : ended s.caller = true ∨ s.Operating ∨
    ∃ e, internal e = true ∧ (s.step e).isSome = true

theorem perm_range {l : List ℕ} {n : ℕ} (h : ∀ i, l.count i = if i < n then 1 else 0) :
    l.Perm (List.range n) := by
  refine List.perm_iff_count.mpr fun i => ?_
  rw [h i, List.nodup_range.count]
  simp only [List.mem_range]

theorem ordered_map {threaded : Bool} {maxTasks : ℕ} {items : List A}
    {es : List (PoolEvent R E)} (hmax : 1 ≤ maxTasks)
    (hrun : Run step (new threaded maxTasks items) es s) : OrderedMap items maxTasks es s := by
  have h := dispatching_run hmax hrun
  obtain ⟨herrors, hcancelled⟩ := history hrun
  have hmax' : 1 ≤ s.maxTasks := h.maxTasks_eq ▸ hmax
  have hnext : s.nextIndex ≤ items.length := h.ordered_eq ▸ h.placed.next
  have hcount : ∀ i, s.calls.count i ≤ if i < s.nextIndex then 1 else 0 := by
    intro i
    rw [← h.placed.placed i, h.placed.called i]
    refine Nat.add_le_add_right (List.countP_mono_left fun a _ ha => ?_) _
    cases a with
    | operating j => exact ha
    | _ => cases ha
  refine ⟨h.maxTasks_eq ▸ h.counted.bound, ⟨?_, fun i hi => ?_⟩, fun results hr => ?_,
    fun error he => ?_, ?_, fun hes => ?_, proceeds h.placed hmax'⟩
  · refine List.nodup_iff_count_le_one.mpr fun i => (hcount i).trans ?_
    split <;> omega
  · have hpos := List.count_pos_iff.mpr hi
    have := hcount i
    split at this <;> omega
  · obtain ⟨hdone, hfailures, hcollect⟩ := h.awaited.returned results hr
    obtain ⟨results', hcollect', hlength, hget, hcounts⟩ :=
      h.placed.complete hmax' hdone hfailures
    rw [hcollect, Option.some.injEq] at hcollect'
    subst hcollect'
    rw [h.ordered_eq] at hlength hcounts
    exact ⟨hdone, perm_range fun i => (hcounts i).1, perm_range fun i => (hcounts i).2, hlength,
      hget⟩
  · refine ⟨h.awaited.raised error he, ?_⟩
    rcases h.awaited.reason error (.inr he) with hop | ⟨hc, hcaller⟩
    · exact .inl ((herrors error).mp hop)
    · exact .inr ⟨hc, hcancelled.mp hcaller⟩
  · rintro ⟨w, error, leaving, hmem⟩ results hr
    have hfailed := h.awaited.errors error ((herrors error).mpr ⟨w, leaving, hmem⟩)
    rw [(h.awaited.returned results hr).2.1] at hfailed
    cases hfailed
  · have hle := length_le hes hrun
    have hstart : (new threaded maxTasks items : WorkerPool A R E).potential ≤
        4 * items.length + min maxTasks items.length + 2 := by
      simp only [potential, new, List.map_replicate, List.sum_replicate_nat, rank]
      cases items <;> simp [callerRank]
    omega

end WorkerPool

/-! ## `map` without threads -/

/-- Calls of an operation one after another, each with the state the one before has left. -/
inductive InlineCalls {S : Type} (run : A → S → Except E R × S) : S → List (A × R) → S → Prop
  | nil (s : S) : InlineCalls run s [] s
  | cons {s s' t : S} {item : A} {result : R} {rest : List (A × R)} :
      run item s = (.ok result, s') → InlineCalls run s' rest t →
      InlineCalls run s ((item, result) :: rest) t

/-- Every item once and in order, up to the first that fails. -/
theorem inlineMap_spec {S : Type} (run : A → S → Except E R × S) : ∀ (items : List A) (s : S),
    match inlineMap run items s with
    | (.ok results, t) =>
      results.length = items.length ∧ InlineCalls run s (items.zip results) t
    | (.error error, t) => ∃ called item rest results s', items = called ++ item :: rest ∧
        results.length = called.length ∧ InlineCalls run s (called.zip results) s' ∧
          run item s' = (.error error, t)
  | [], s => ⟨rfl, .nil s⟩
  | item :: items, s => by
      rw [inlineMap]
      cases hrun : run item s with
      | mk answer s' =>
        cases answer with
        | error error => exact ⟨[], item, items, [], s, rfl, rfl, .nil s, hrun⟩
        | ok result =>
          have ih := inlineMap_spec run items s'
          dsimp only
          cases hrest : inlineMap run items s' with
          | mk answers s'' =>
            rw [hrest] at ih
            cases answers with
            | ok results => exact ⟨congrArg (· + 1) ih.1, .cons hrun ih.2⟩
            | error error =>
              obtain ⟨called, item', rest, results, s₁, rfl, hlength, hcalls, hfails⟩ := ih
              exact ⟨item :: called, item', rest, result :: results, s₁, rfl,
                congrArg (· + 1) hlength, .cons hrun hcalls, hfails⟩

/-- `run_bounded` and `map` with and without threads, whatever their operations do. -/
theorem fixed_workers_map :
    (∀ (items : List A) (maxTasks : ℕ) (pool s : WorkerPool A R E) (es : List (PoolEvent R E)),
      1 ≤ maxTasks → runBounded items maxTasks = .ok pool → Run WorkerPool.step pool es s →
      s.OrderedMap items maxTasks es) ∧
    (∀ (isolator : AsyncPayloadIsolator) (items : List A) (pool s : WorkerPool A R E)
      (es : List (PoolEvent R E)), 1 ≤ isolator.maxConcurrency → isolator.map items = some pool →
      Run WorkerPool.step pool es s → s.OrderedMap items isolator.maxConcurrency es) ∧
    ∀ (S : Type) (run : A → S → Except E R × S) (items : List A) (s : S),
      match inlineMap run items s with
      | (.ok results, t) =>
        results.length = items.length ∧ InlineCalls run s (items.zip results) t
      | (.error error, t) => ∃ called item rest results s', items = called ++ item :: rest ∧
          results.length = called.length ∧ InlineCalls run s (called.zip results) s' ∧
            run item s' = (.error error, t) := by
  refine ⟨fun items maxTasks pool s es hmax hpool hrun => ?_,
    fun isolator items pool s es hmax hpool hrun => ?_, fun S run => inlineMap_spec run⟩
  · rw [runBounded, if_neg (Nat.not_lt.mpr hmax), Except.ok.injEq] at hpool
    subst hpool
    exact WorkerPool.ordered_map hmax hrun
  · unfold AsyncPayloadIsolator.map at hpool
    split at hpool
    · cases hpool
    · cases hpool
      exact WorkerPool.ordered_map hmax hrun

/-- Three items over two workers; the second operation returns first. -/
def twoWorkers : List (PoolEvent ℕ Unit) :=
  [.begins 0, .begins 1, .returns 1 20, .returns 1 30, .returns 0 10, .wake false]

/-- Two copies over one slot; the second one raises. -/
def oneCopy : List (PoolEvent ℕ Unit) :=
  [.begins 0, .calls 0, .returns 0 10, .calls 0, .raises 0 (.operation ()) false, .wake false,
    .reap]

theorem fixed_workers_map_two :
    (∃ s : WorkerPool ℕ ℕ Unit, exec WorkerPool.step (.new false 2 [1, 2, 3]) twoWorkers = some s ∧
      s.caller = .returned [10, 20, 30] ∧ s.OrderedMap [1, 2, 3] 2 twoWorkers) ∧
    ∃ s : WorkerPool ℕ ℕ Unit, exec WorkerPool.step (.new true 1 [1, 2]) oneCopy = some s ∧
      s.caller = .raised (.operation ()) ∧ s.OrderedMap [1, 2] 1 oneCopy := by
  refine ⟨⟨_, rfl, rfl, ?_⟩, _, rfl, rfl, ?_⟩
  · exact fixed_workers_map.1 [1, 2, 3] 2 _ _ twoWorkers (by decide) rfl (exec_run rfl)
  · exact fixed_workers_map.2.1 (.new 1) [1, 2] _ _ oneCopy (by decide) rfl (exec_run rfl)

end
end Coalestra
