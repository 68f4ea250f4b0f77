import Coalestra.SyncShutdown

/-! # What a close leaves behind

The facade of `sync.py` along its runs. A close that works holds the lock (`Ordered`), captures
every submission that is open and lets none outlive its cancellation; the invariants of the
builder, the loop and the flushes rest on that order (`Settling`), and every run keeps them
(`sync_close_settles`). -/

namespace Coalestra
set_option autoImplicit false
set_option maxHeartbeats 250000

/-! ## The order of a close -/

/-- The call holds the close lock. -/
def SyncClose.working (call : SyncClose) : Bool :=
  match call.point with
  | .draining _ | .cancelling _ _ | .awaiting _ | .shutting | .finalizing _ | .joining _ => true
  | _ => false

/-- The call has not yet come to the builder. -/
def SyncClose.early (call : SyncClose) : Bool :=
  match call.point with
  | .draining _ | .cancelling _ _ | .awaiting _ => true
  | _ => false

/-- What the point of a call says about the facade: whatever is open when it begins is captured, and
from the second wait on nothing is. -/
def SyncClose.Holds (call : SyncClose) (s : SyncShutdown) : Prop :=
  match call.point with
  | .entering => True
  | .skipped => s.closed = true
  | .draining captured => s.isOpen = false ∧ ∀ i, s.Undone i → i ∈ captured
  | .cancelling rest _ => s.isOpen = false ∧ call.timedOut = true ∧ ∀ i, s.Undone i → i ∈ rest
  | .awaiting _ | .shutting | .finalizing _ => s.isOpen = false ∧ ∀ i, ¬ s.Undone i
  | .joining _ | .raised _ => s.closed = true ∧ ∀ i, ¬ s.Undone i
  | .returned => s.closed = true ∧ s.loop = .closed ∧ ∀ i, ¬ s.Undone i

/-- What was accepted before a flush took the pending submissions is captured or done. -/
def SyncFlush.Holds (flush : SyncFlush) (s : SyncShutdown) : Prop :=
  match flush with
  | .waiting captured seen => seen ≤ s.submissions.length ∧ ∀ i < seen, i ∈ captured ∨ s.Done i
  | .returned seen => seen ≤ s.submissions.length ∧ ∀ i < seen, s.Done i
  | _ => True

namespace SyncShutdown

section
variable {s t u : SyncShutdown}

theorem shut_of_closed (h : s.closed = true) : s.isOpen = false := isOpen_eq_false.mpr (.inl h)

theorem holds_follows {call : SyncClose} (h : call.Holds s) (hf : Follows s t) : call.Holds t := by
  unfold SyncClose.Holds at h ⊢
  cases hpoint : call.point with
  | entering => trivial
  | skipped =>
    rw [hpoint] at h
    exact hf.closed h
  | draining captured =>
    rw [hpoint] at h
    obtain ⟨hopen, -, -, hundone⟩ := hf.shut h.1
    exact ⟨hopen, fun i hi => h.2 i (hundone i hi)⟩
  | cancelling rest remaining =>
    rw [hpoint] at h
    obtain ⟨hopen, -, -, hundone⟩ := hf.shut h.1
    exact ⟨hopen, h.2.1, fun i hi => h.2.2 i (hundone i hi)⟩
  | awaiting remaining | shutting | finalizing ended =>
    rw [hpoint] at h
    obtain ⟨hopen, -, -, hundone⟩ := hf.shut h.1
    exact ⟨hopen, fun i hi => h.2 i (hundone i hi)⟩
  | joining ended | raised error =>
    rw [hpoint] at h
    obtain ⟨-, -, -, hundone⟩ := hf.shut (shut_of_closed h.1)
    exact ⟨hf.closed h.1, fun i hi => h.2 i (hundone i hi)⟩
  | returned =>
    rw [hpoint] at h
    obtain ⟨-, -, -, hundone⟩ := hf.shut (shut_of_closed h.1)
    exact ⟨hf.closed h.1, hf.loop h.2.1, fun i hi => h.2.2 i (hundone i hi)⟩

theorem flush_follows {flush : SyncFlush} (h : flush.Holds s) (hf : Follows s t) :
    flush.Holds t := by
  cases flush with
  | entered | refused | timedOut => trivial
  | waiting captured seen =>
    refine ⟨Nat.le_trans h.1 hf.length, ?_⟩
    intro i hi
    rcases h.2 i hi with hmem | hdone
    · exact .inl hmem
    · exact .inr (hf.done i hdone)
  | returned seen => exact ⟨Nat.le_trans h.1 hf.length, fun i hi => hf.done i (h.2 i hi)⟩

/-- The calls of `close` come one after the other, and the builder is closed once. -/
structure Ordered (s : SyncShutdown) : Prop where
  holds : ∀ (c : ℕ) call, s.closes[c]? = some call → call.Holds s
  holder : ∀ (c : ℕ) call, s.closes[c]? = some call → call.working = true → s.closer = some c
  early : ∀ (c : ℕ) call, s.closes[c]? = some call → call.early = true →
    s.closed = false ∧ s.shutdowns = 0
  unused : s.closed = false → s.closer = none → s.shutdowns = 0
  once : s.shutdowns ≤ 1

theorem working_of_early {call : SyncClose} (h : call.early = true) : call.working = true := by
  unfold SyncClose.early at h
  unfold SyncClose.working
  cases hpoint : call.point <;> rw [hpoint] at h <;> first | rfl | cases h

/-- A step without a call of `close`. -/
theorem Ordered.of_same (h : Ordered s) (hf : Follows s t) (hcloses : t.closes = s.closes)
    (hcloser : t.closer = s.closer) (hclosed : t.closed = s.closed)
    (hshutdowns : t.shutdowns = s.shutdowns) : Ordered t := by
  obtain ⟨hholds, hholder, hearly, hunused, honce⟩ := h
  refine ⟨?_, ?_, ?_, ?_, by rw [hshutdowns]; exact honce⟩
  · intro c call hc
    rw [hcloses] at hc
    exact holds_follows (hholds c call hc) hf
  · rw [hcloses, hcloser]
    exact hholder
  · rw [hcloses, hclosed, hshutdowns]
    exact hearly
  · rw [hcloser, hclosed, hshutdowns]
    exact hunused

/-- A step of one call of `close`, from what becomes of it and of the lock. -/
theorem Ordered.of_set (h : Ordered s) (hf : Follows s t) {c : ℕ} {call' : SyncClose}
    (hcloses : t.closes = s.closes.set c call') (hnew : call'.Holds t)
    (hworking : call'.working = true → t.closer = some c)
    (hothers : ∀ j, j ≠ c → s.closer = some j →
      t.closer = some j ∧ t.closed = s.closed ∧ t.shutdowns = s.shutdowns)
    (hearly : call'.early = true → t.closed = false ∧ t.shutdowns = 0)
    (hunused : t.closed = false → t.closer = none → t.shutdowns = 0)
    (honce : t.shutdowns ≤ 1) : Ordered t := by
  refine ⟨?_, ?_, ?_, hunused, honce⟩
  · intro j call hj
    rw [hcloses] at hj
    rcases getElem?_set_cases hj with ⟨-, rfl⟩ | ⟨-, hj⟩
    · exact hnew
    · exact holds_follows (h.holds j call hj) hf
  · intro j call hj hw
    rw [hcloses] at hj
    rcases getElem?_set_cases hj with ⟨rfl, rfl⟩ | ⟨hne, hj⟩
    · exact hworking hw
    · exact (hothers j hne (h.holder j call hj hw)).1
  · intro j call hj he
    rw [hcloses] at hj
    rcases getElem?_set_cases hj with ⟨rfl, rfl⟩ | ⟨hne, hj⟩
    · exact hearly he
    · obtain ⟨-, hclosed, hshutdowns⟩ :=
        hothers j hne (h.holder j call hj (working_of_early he))
      rw [hclosed, hshutdowns]
      exact h.early j call hj he

theorem done_of_not_undone {i : ℕ} (hi : i < s.submissions.length) (h : ¬ s.Undone i) :
    s.Done i :=
  ⟨s.submissions[i], List.getElem?_eq_getElem hi,
    fun hpending => h ⟨_, List.getElem?_eq_getElem hi, hpending⟩⟩

theorem undone_pending (h : Tracked s) {i : ℕ} (hi : s.Undone i) : i ∈ s.pending := by
  obtain ⟨task, htask, hpending⟩ := hi
  refine h.pending i task htask (Bool.eq_false_iff.mpr ?_)
  intro hdiscarded
  exact (h.tasks i task htask).discarded hdiscarded hpending

theorem not_undone_of_waited (h : Tracked s) {i : ℕ} (hwaited : s.waited i = true) :
    ¬ s.Undone i := by
  rintro ⟨task, hi, hpending⟩
  rw [waited, hi, Option.any_some] at hwaited
  exact ((h.tasks i task hi).notified hwaited).2 hpending

theorem done_of_waited (h : Tracked s) {i : ℕ} (hwaited : s.waited i = true) : s.Done i := by
  cases hi : s.submissions[i]? with
  | none =>
    rw [waited, hi] at hwaited
    cases hwaited
  | some task =>
    rw [waited, hi, Option.any_some] at hwaited
    exact ⟨task, hi, ((h.tasks i task hi).notified hwaited).2⟩

theorem ordered_close (h : Ordered s) (htracked : Tracked s) {c : ℕ} {call : SyncClose}
    (hc : s.closes[c]? = some call) (hmove : CloseMove s t c call) : Ordered t := by
  have hf := hmove.follows
  have hholds := h.holds c call hc
  -- while a call works, no other one holds the lock
  have halone : call.working = true → ∀ j, j ≠ c → s.closer = some j → False := by
    intro hw j hne hj
    rw [h.holder c call hc hw, Option.some.injEq] at hj
    exact hne hj.symm
  have hheld : call.working = true → s.closer ≠ none := by
    intro hw hnone
    rw [h.holder c call hc hw] at hnone
    cases hnone
  cases hmove with
  | skips hpoint hclosed ht =>
    subst ht
    exact h.of_set hf rfl hclosed (fun hw => by cases hw) (fun j _ hj => ⟨hj, rfl, rfl⟩)
      (fun he => by cases he) h.unused h.once
  | begins hpoint hfree hclosed ht =>
    subst ht
    have hunused := h.unused hclosed hfree
    refine h.of_set hf rfl ⟨isOpen_eq_false.mpr (.inr rfl), ?_⟩ (fun _ => rfl) ?_
      (fun _ => ⟨hclosed, hunused⟩) (fun _ hnone => by cases hnone) h.once
    · intro i hi
      exact undone_pending htracked hi
    · intro j _ hj
      rw [hfree] at hj
      cases hj
  | drained captured hpoint hall ht =>
    subst ht
    have hw : call.working = true := by rw [SyncClose.working, hpoint]
    have he := h.early c call hc (by rw [SyncClose.early, hpoint])
    rw [SyncClose.Holds, hpoint] at hholds
    refine h.of_set hf rfl ⟨hholds.1, ?_⟩ (fun _ => h.holder c call hc hw)
      (fun j hne hj => (halone hw j hne hj).elim) (fun he' => by cases he') ?_ ?_
    · intro i hi
      exact not_undone_of_waited htracked (List.all_eq_true.mp hall i (hholds.2 i hi)) hi
    · intro _ hnone
      exact absurd hnone (hheld hw)
    · exact Nat.le_of_eq (by simp [he.2])
  | expires captured hpoint ht =>
    subst ht
    have hw : call.working = true := by rw [SyncClose.working, hpoint]
    have he := h.early c call hc (by rw [SyncClose.early, hpoint])
    rw [SyncClose.Holds, hpoint] at hholds
    refine h.of_set hf rfl ⟨hholds.1, rfl, ?_⟩ (fun _ => h.holder c call hc hw)
      (fun j hne hj => (halone hw j hne hj).elim) (fun _ => he) h.unused h.once
    intro i hi
    refine List.mem_filter.mpr ⟨hholds.2 i hi, ?_⟩
    rw [Bool.not_eq_true']
    exact Bool.eq_false_iff.mpr fun hwaited => not_undone_of_waited htracked hwaited hi
  | cancelled remaining hpoint ht =>
    subst ht
    have hw : call.working = true := by rw [SyncClose.working, hpoint]
    have he := h.early c call hc (by rw [SyncClose.early, hpoint])
    rw [SyncClose.Holds, hpoint] at hholds
    refine h.of_set hf rfl ⟨hholds.1, ?_⟩ (fun _ => h.holder c call hc hw)
      (fun j hne hj => (halone hw j hne hj).elim) (fun _ => he) h.unused h.once
    intro i hi
    exact absurd (hholds.2.2 i hi) List.not_mem_nil
  | cancels i rest remaining task hpoint hi ht =>
    subst ht
    have hw : call.working = true := by rw [SyncClose.working, hpoint]
    have he := h.early c call hc (by rw [SyncClose.early, hpoint])
    rw [SyncClose.Holds, hpoint] at hholds
    refine h.of_set hf rfl ⟨hholds.1, hholds.2.1, ?_⟩ (fun _ => h.holder c call hc hw)
      (fun j hne hj => (halone hw j hne hj).elim) (fun _ => he) h.unused h.once
    intro j hj
    have hmem := hholds.2.2 j ((hf.shut hholds.1).2.2.2 j hj)
    obtain ⟨task', hj, hpending⟩ := hj
    rcases getElem?_set_cases (l := s.submissions) hj with ⟨-, rfl⟩ | ⟨hne, -⟩
    · unfold SubmissionTask.cancelled at hpending
      split at hpending
      · cases hpending
      · rename_i hdone
        exact absurd hpending hdone
    · exact (List.mem_erase_of_ne hne).mpr hmem
  | awaited remaining hpoint ht =>
    subst ht
    have hw : call.working = true := by rw [SyncClose.working, hpoint]
    have he := h.early c call hc (by rw [SyncClose.early, hpoint])
    rw [SyncClose.Holds, hpoint] at hholds
    refine h.of_set hf rfl hholds (fun _ => h.holder c call hc hw)
      (fun j hne hj => (halone hw j hne hj).elim) (fun he' => by cases he') ?_ ?_
    · intro _ hnone
      exact absurd hnone (hheld hw)
    · exact Nat.le_of_eq (by simp [he.2])
  | leaves ended hpoint ht =>
    subst ht
    have hw : call.working = true := by rw [SyncClose.working, hpoint]
    rw [SyncClose.Holds, hpoint] at hholds
    exact h.of_set hf rfl ⟨rfl, hholds.2⟩ (fun hw' => by cases hw')
      (fun j hne hj => (halone hw j hne hj).elim) (fun he => by cases he)
      (fun hopen => by cases hopen) h.once
  | stops ended hpoint ht =>
    subst ht
    have hw : call.working = true := by rw [SyncClose.working, hpoint]
    rw [SyncClose.Holds, hpoint] at hholds
    exact h.of_set hf rfl ⟨rfl, hholds.2⟩ (fun _ => h.holder c call hc hw)
      (fun j hne hj => (halone hw j hne hj).elim) (fun he => by cases he)
      (fun hopen => by cases hopen) h.once
  | joins ended hpoint hloop ht =>
    subst ht
    have hw : call.working = true := by rw [SyncClose.working, hpoint]
    rw [SyncClose.Holds, hpoint] at hholds
    have hunused : s.closed = false → s.shutdowns = 0 := by
      intro hopen
      rw [hholds.1] at hopen
      cases hopen
    by_cases hended : ended = .closed
    · refine h.of_set hf rfl ?_ ?_ (fun j hne hj => (halone hw j hne hj).elim) ?_
        (fun hopen _ => hunused hopen) h.once
      · rw [if_pos hended]
        exact ⟨hholds.1, hloop, hholds.2⟩
      · rw [if_pos hended]
        intro hw'
        cases hw'
      · rw [if_pos hended]
        intro he
        cases he
    · refine h.of_set hf rfl ?_ ?_ (fun j hne hj => (halone hw j hne hj).elim) ?_
        (fun hopen _ => hunused hopen) h.once
      · rw [if_neg hended]
        exact hholds
      · rw [if_neg hended]
        intro hw'
        cases hw'
      · rw [if_neg hended]
        intro he
        cases he
  | gives ended hpoint ht =>
    subst ht
    have hw : call.working = true := by rw [SyncClose.working, hpoint]
    rw [SyncClose.Holds, hpoint] at hholds
    refine h.of_set hf rfl hholds (fun hw' => by cases hw')
      (fun j hne hj => (halone hw j hne hj).elim) (fun he => by cases he) ?_ h.once
    intro hopen _
    exact absurd (hholds.1.symm.trans hopen) (by decide)

theorem ordered_step {l : SyncLabel} (h : Ordered s) (htracked : Tracked s)
    (hs : s.step l = some t) : Ordered t := by
  have hf := follows_step hs
  cases step_cases hs with
  | refuses ht => rw [ht]; exact h
  | accepts _ _ ht => subst ht; exact h.of_same hf rfl rfl rfl rfl
  | schedules ht =>
    rcases ht with ⟨-, ht⟩ | ht
    · subst ht
      exact h.of_same hf rfl rfl rfl rfl
    · rw [ht]
      exact h
  | submission _ i task hi hmove =>
    obtain ⟨submissions, pending, ht⟩ := hmove.rest
    subst ht
    exact h.of_same hf rfl rfl rfl rfl
  | callsClose ht =>
    subst ht
    refine ⟨?_, ?_, ?_, h.unused, h.once⟩
    · intro c call hc
      rcases getElem?_concat_cases hc with hc | ⟨-, rfl⟩
      · exact holds_follows (h.holds c call hc) hf
      · trivial
    · intro c call hc hw
      rcases getElem?_concat_cases hc with hc | ⟨-, rfl⟩
      · exact h.holder c call hc hw
      · cases hw
    · intro c call hc he
      rcases getElem?_concat_cases hc with hc | ⟨-, rfl⟩
      · exact h.early c call hc he
      · cases he
  | closes _ c call hc hmove => exact ordered_close h htracked hc hmove
  | ends c ended call hc hpoint ht =>
    subst ht
    have hw : call.working = true := by rw [SyncClose.working, hpoint]
    have hholds := h.holds c call hc
    rw [SyncClose.Holds, hpoint] at hholds
    refine h.of_set hf rfl hholds (fun _ => h.holder c call hc hw)
      (fun j _ hj => ⟨hj, rfl, rfl⟩) (fun he => by cases he) h.unused h.once
  | callsFlush _ _ ht | captures _ _ _ ht | requests _ _ ht | closesLoop _ _ ht =>
    subst ht
    exact h.of_same hf rfl rfl rfl rfl
  | flushes _ _ _ _ _ ht =>
    rcases ht with ⟨-, ht⟩ | ht <;> subst ht <;> exact h.of_same hf rfl rfl rfl rfl

end

end SyncShutdown

/-! ## Cancellation, the builder and the loop -/

/-- The builder's close has been called and its end not yet written down. -/
def SyncClose.shuts (call : SyncClose) : Bool :=
  match call.point with
  | .shutting | .finalizing _ => true
  | _ => false

namespace SyncShutdown

/-- Some call of `close` stopped waiting for the submissions. -/
def TimedOut (s : SyncShutdown) : Prop := ∃ call ∈ s.closes, call.timedOut = true

section
variable {s t u : SyncShutdown}

/-- What a step does to the submissions: `close` cancels only after it has waited. -/
theorem submissions_cases {l : SyncLabel} (h : Ordered s) (hs : s.step l = some t) :
    t.submissions = s.submissions ∨
    s.isOpen = true ∧ t.submissions = s.submissions ++ [⟨.pending, false, false, false, false⟩] ∨
    ∃ (i : ℕ) (task task' : SubmissionTask), s.submissions[i]? = some task ∧
      t.submissions = s.submissions.set i task' ∧ (task.taskEnded = true → task'.taskEnded = true) ∧
      (task'.future = .cancelled true → task.future = .cancelled true ∨ s.TimedOut) := by
  have hcancelled : ∀ (task : SubmissionTask) (byClose : Bool),
      (task.cancelled byClose).taskEnded = task.taskEnded ∧
      ((task.cancelled byClose).future = task.future ∨
        (task.cancelled byClose).future = .cancelled byClose) := by
    intro task byClose
    unfold SubmissionTask.cancelled
    split
    · exact ⟨rfl, .inr rfl⟩
    · exact ⟨rfl, .inl rfl⟩
  cases step_cases hs with
  | refuses ht => exact .inl (by rw [ht])
  | accepts hopen _ ht => exact .inr (.inl ⟨hopen, by rw [ht]⟩)
  | schedules ht => exact .inl (by rcases ht with ⟨-, ht⟩ | ht <;> rw [ht])
  | submission _ i task hi hmove =>
    refine .inr (.inr ⟨i, task, ?_⟩)
    cases hmove with
    | registers ht =>
      subst ht
      exact ⟨_, hi, rfl, id, .inl⟩
    | cancels ht =>
      subst ht
      obtain ⟨hended, hfuture⟩ := hcancelled task false
      refine ⟨_, hi, rfl, hended.trans, ?_⟩
      intro hclose
      rcases hfuture with hfuture | hfuture
      · exact .inl (hfuture.symm.trans hclose)
      · rw [hfuture] at hclose
        cases hclose
    | ends ht =>
      subst ht
      exact ⟨_, hi, rfl, fun _ => rfl, .inl⟩
    | tells _ ht =>
      subst ht
      refine ⟨_, hi, rfl, id, ?_⟩
      intro hclose
      unfold SubmissionTask.told at hclose
      simp only at hclose
      split at hclose
      · cases hclose
      · exact .inl hclose
    | discards _ ht =>
      subst ht
      exact ⟨_, hi, rfl, id, .inl⟩
  | closes _ c call hc hmove =>
    cases hmove with
    | cancels i rest remaining task hpoint hi ht =>
      subst ht
      obtain ⟨hended, -⟩ := hcancelled task true
      refine .inr (.inr ⟨i, task, _, hi, rfl, hended.trans, fun _ => .inr ?_⟩)
      have hholds := h.holds c call hc
      rw [SyncClose.Holds, hpoint] at hholds
      exact ⟨call, List.mem_of_getElem? hc, hholds.2.1⟩
    | skips _ _ ht | begins _ _ _ ht | drained _ _ _ ht | expires _ _ ht | cancelled _ _ ht
    | awaited _ _ ht | leaves _ _ ht | stops _ _ ht | joins _ _ _ ht | gives _ _ ht =>
      subst ht
      exact .inl rfl
  | callsClose ht | ends _ _ _ _ _ ht | callsFlush _ _ ht | captures _ _ _ ht | requests _ _ ht
  | closesLoop _ _ ht =>
    subst ht
    exact .inl rfl
  | flushes _ _ _ _ _ ht => rcases ht with ⟨-, ht⟩ | ht <;> subst ht <;> exact .inl rfl

/-- What a step does to the calls of `close` and to the count of the builder's closes. -/
theorem closes_cases {l : SyncLabel} (hs : s.step l = some t) : s.shutdowns ≤ t.shutdowns ∧
    (t.closes = s.closes ∨ t.closes = s.closes ++ [⟨.entering, false⟩] ∨
      ∃ (c : ℕ) (call call' : SyncClose), s.closes[c]? = some call ∧
        t.closes = s.closes.set c call' ∧ (call.timedOut = true → call'.timedOut = true) ∧
        (call'.shuts = true → call.shuts = true ∨ 1 ≤ t.shutdowns)) := by
  cases step_cases hs with
  | refuses ht | accepts _ _ ht =>
    subst ht
    exact ⟨Nat.le_refl _, .inl rfl⟩
  | schedules ht =>
    rcases ht with ⟨-, ht⟩ | ht <;> subst ht <;> exact ⟨Nat.le_refl _, .inl rfl⟩
  | submission _ i task _ hmove =>
    obtain ⟨submissions, pending, ht⟩ := hmove.rest
    subst ht
    exact ⟨Nat.le_refl _, .inl rfl⟩
  | callsClose ht =>
    subst ht
    exact ⟨Nat.le_refl _, .inr (.inl rfl)⟩
  | closes _ c call hc hmove =>
    cases hmove with
    | drained _ _ _ ht | awaited _ _ ht =>
      subst ht
      exact ⟨Nat.le_succ _,
        .inr (.inr ⟨c, call, _, hc, rfl, id, fun _ => .inr (Nat.le_add_left 1 _)⟩)⟩
    | expires _ _ ht =>
      subst ht
      refine ⟨Nat.le_refl _, .inr (.inr ⟨c, call, _, hc, rfl, fun _ => rfl, ?_⟩)⟩
      intro hshuts
      cases hshuts
    | joins ended _ _ ht =>
      subst ht
      refine ⟨Nat.le_refl _, .inr (.inr ⟨c, call, _, hc, rfl, id, ?_⟩)⟩
      intro hshuts
      unfold SyncClose.shuts at hshuts
      by_cases hended : ended = .closed
      · rw [if_pos hended] at hshuts
        cases hshuts
      · rw [if_neg hended] at hshuts
        cases hshuts
    | skips _ _ ht | begins _ _ _ ht | cancelled _ _ ht | cancels _ _ _ _ _ _ ht | leaves _ _ ht
    | stops _ _ ht | gives _ _ ht =>
      subst ht
      refine ⟨Nat.le_refl _, .inr (.inr ⟨c, call, _, hc, rfl, id, ?_⟩)⟩
      intro hshuts
      cases hshuts
  | ends c ended call hc hpoint ht =>
    subst ht
    refine ⟨Nat.le_refl _, .inr (.inr ⟨c, call, _, hc, rfl, id, fun _ => .inl ?_⟩)⟩
    rw [SyncClose.shuts, hpoint]
  | callsFlush _ _ ht | captures _ _ _ ht | requests _ _ ht | closesLoop _ _ ht =>
    subst ht
    exact ⟨Nat.le_refl _, .inl rfl⟩
  | flushes _ _ _ _ _ ht =>
    rcases ht with ⟨-, ht⟩ | ht <;> subst ht <;> exact ⟨Nat.le_refl _, .inl rfl⟩

theorem timedOut_step {l : SyncLabel} (hs : s.step l = some t) (h : s.TimedOut) : t.TimedOut := by
  obtain ⟨call, hmem, htimedOut⟩ := h
  rcases (closes_cases hs).2 with hsame | happend | ⟨c, old, new, hc, hset, hkept, -⟩
  · exact ⟨call, by rw [hsame]; exact hmem, htimedOut⟩
  · exact ⟨call, by rw [happend]; exact List.mem_append_left _ hmem, htimedOut⟩
  · obtain ⟨j, hj⟩ := List.mem_iff_getElem?.mp hmem
    by_cases hjc : j = c
    · subst hjc
      rw [hc, Option.some.injEq] at hj
      subst hj
      refine ⟨new, ?_, hkept htimedOut⟩
      rw [hset]
      exact List.mem_of_getElem? (getElem?_set_same new hc)
    · refine ⟨call, ?_, htimedOut⟩
      rw [hset]
      have hkeptj := (List.getElem?_set_ne (a := new) fun e => hjc e.symm).trans hj
      exact List.mem_of_getElem? hkeptj

/-- What a step does to the loop, and when it shuts the facade for good. -/
theorem loop_cases {l : SyncLabel} (h : Ordered s) (hs : s.step l = some t) :
    (t.closed = s.closed ∨
      ∃ (c : ℕ) (call : SyncClose), s.closes[c]? = some call ∧ call.shuts = true) ∧
    (t.loop = s.loop ∧ t.stopDeferred = s.stopDeferred ∨ s.loop ≠ .running ∨
      s.stopDeferred = true ∨ t.isOpen = false) ∧
    (t.loop = .closed → s.loop = .closed ∨
      s.submissions.all SubmissionTask.taskEnded = true ∧ t.submissions = s.submissions) := by
  cases step_cases hs with
  | refuses ht | accepts _ _ ht | callsClose ht | callsFlush _ _ ht | captures _ _ _ ht =>
    subst ht
    exact ⟨.inl rfl, .inl ⟨rfl, rfl⟩, .inl⟩
  | schedules ht | flushes _ _ _ _ _ ht =>
    rcases ht with ⟨-, ht⟩ | ht <;> subst ht <;> exact ⟨.inl rfl, .inl ⟨rfl, rfl⟩, .inl⟩
  | submission _ i task _ hmove =>
    obtain ⟨submissions, pending, ht⟩ := hmove.rest
    subst ht
    exact ⟨.inl rfl, .inl ⟨rfl, rfl⟩, .inl⟩
  | closes _ c call hc hmove =>
    cases hmove with
    | skips _ _ ht | begins _ _ _ ht | drained _ _ _ ht | expires _ _ ht | cancelled _ _ ht
    | cancels _ _ _ _ _ _ ht | awaited _ _ ht | joins _ _ _ ht | gives _ _ ht =>
      subst ht
      exact ⟨.inl rfl, .inl ⟨rfl, rfl⟩, .inl⟩
    | leaves ended hpoint ht =>
      subst ht
      exact ⟨.inr ⟨c, call, hc, by rw [SyncClose.shuts, hpoint]⟩, .inl ⟨rfl, rfl⟩, .inl⟩
    | stops ended hpoint ht =>
      subst ht
      refine ⟨.inr ⟨c, call, hc, by rw [SyncClose.shuts, hpoint]⟩,
        .inr (.inr (.inr (shut_of_closed rfl))), ?_⟩
      intro hloop
      change (if s.loop = .running then LoopStatus.stopRequested else s.loop) = .closed at hloop
      split at hloop
      · cases hloop
      · exact .inl hloop
  | ends c ended call hc hpoint ht =>
    subst ht
    have hholds := h.holds c call hc
    rw [SyncClose.Holds, hpoint] at hholds
    exact ⟨.inl rfl, .inr (.inr (.inr hholds.1)), .inl⟩
  | requests hdeferred _ ht =>
    subst ht
    exact ⟨.inl rfl, .inr (.inr (.inl hdeferred)), fun hloop => by cases hloop⟩
  | closesLoop hrequested hended ht =>
    subst ht
    refine ⟨.inl rfl, .inr (.inl ?_), fun _ => .inr ⟨hended, rfl⟩⟩
    rw [hrequested]
    decide

/-- What a step does to the calls of `flush_submissions`. -/
theorem flushes_cases {l : SyncLabel} (hs : s.step l = some t) : t.flushes = s.flushes ∨
    (∃ flush, (flush = .entered ∨ flush = .refused) ∧ t.flushes = s.flushes ++ [flush]) ∨
    (∃ f, t.submissions = s.submissions ∧
      t.flushes = s.flushes.set f (.waiting s.pending s.submissions.length)) ∨
    ∃ (f : ℕ) (captured : List ℕ) (seen : ℕ), s.flushes[f]? = some (.waiting captured seen) ∧
      t.submissions = s.submissions ∧
      (captured.all s.waited = true ∧ t.flushes = s.flushes.set f (.returned seen) ∨
        t.flushes = s.flushes.set f .timedOut) := by
  cases step_cases hs with
  | refuses ht | accepts _ _ ht | callsClose ht | ends _ _ _ _ _ ht | requests _ _ ht
  | closesLoop _ _ ht =>
    subst ht
    exact .inl rfl
  | schedules ht => rcases ht with ⟨-, ht⟩ | ht <;> subst ht <;> exact .inl rfl
  | submission _ i task _ hmove =>
    obtain ⟨submissions, pending, ht⟩ := hmove.rest
    subst ht
    exact .inl rfl
  | closes _ c call hc hmove => exact .inl hmove.rest.1
  | callsFlush flush hnew ht =>
    subst ht
    exact .inr (.inl ⟨flush, hnew, rfl⟩)
  | captures f _ _ ht =>
    subst ht
    exact .inr (.inr (.inl ⟨f, rfl, rfl⟩))
  | flushes f _ captured seen hf ht =>
    refine .inr (.inr (.inr ⟨f, captured, seen, hf, ?_⟩))
    rcases ht with ⟨hall, ht⟩ | ht
    · subst ht
      exact ⟨rfl, .inl ⟨hall, rfl⟩⟩
    · subst ht
      exact ⟨rfl, .inr rfl⟩

theorem shuts_holds {call : SyncClose} (h : call.Holds s) (hshuts : call.shuts = true) :
    s.isOpen = false ∧ ∀ i, ¬ s.Undone i := by
  unfold SyncClose.shuts at hshuts
  cases hpoint : call.point with
  | shutting | finalizing ended =>
    rw [SyncClose.Holds, hpoint] at h
    exact h
  | entering | draining captured | cancelling rest remaining | awaiting remaining | joining ended
  | skipped | returned | raised error =>
    rw [hpoint] at hshuts
    cases hshuts

/-- What holds beside the order: no future is cancelled before a wait has run out, the builder is
closed before the facade, the loop ends behind a facade that is shut, and flushes see their
submissions end. -/
structure Settling (s : SyncShutdown) : Prop where
  flushes : ∀ (f : ℕ) flush, s.flushes[f]? = some flush → flush.Holds s
  cancelled : ∀ (i : ℕ) task, s.submissions[i]? = some task → task.future = .cancelled true →
    s.TimedOut
  builder : ∀ (c : ℕ) call, s.closes[c]? = some call → call.shuts = true → 1 ≤ s.shutdowns
  closed : s.closed = true → 1 ≤ s.shutdowns ∧ ∀ i, ¬ s.Undone i
  shut : s.loop ≠ .running ∨ s.stopDeferred = true → s.isOpen = false
  ended : s.loop = .closed → s.submissions.all SubmissionTask.taskEnded = true

theorem settling_flushes {l : SyncLabel} (h : Settling s) (htracked : Tracked s)
    (hs : s.step l = some t) : ∀ (f : ℕ) flush, t.flushes[f]? = some flush → flush.Holds t := by
  have hf := follows_step hs
  intro f flush hflush
  rcases flushes_cases hs with hsame | ⟨new, hnew, happend⟩ | ⟨f', hsubmissions, hset⟩ |
    ⟨f', captured, seen, hold, hsubmissions, hset⟩
  · rw [hsame] at hflush
    exact flush_follows (h.flushes f flush hflush) hf
  · rw [happend] at hflush
    rcases getElem?_concat_cases hflush with hflush | ⟨-, rfl⟩
    · exact flush_follows (h.flushes f flush hflush) hf
    · rcases hnew with rfl | rfl <;> trivial
  · rw [hset] at hflush
    rcases getElem?_set_cases hflush with ⟨-, rfl⟩ | ⟨-, hflush⟩
    · refine ⟨Nat.le_of_eq (by rw [hsubmissions]), ?_⟩
      intro i hi
      by_cases hundone : s.Undone i
      · exact .inl (undone_pending htracked hundone)
      · exact .inr (hf.done i (done_of_not_undone hi hundone))
    · exact flush_follows (h.flushes f flush hflush) hf
  · have hholds := h.flushes f' _ hold
    rcases hset with ⟨hall, hset⟩ | hset
    · rw [hset] at hflush
      rcases getElem?_set_cases hflush with ⟨-, rfl⟩ | ⟨-, hflush⟩
      · refine ⟨Nat.le_trans hholds.1 hf.length, ?_⟩
        intro i hi
        rcases hholds.2 i hi with hmem | hdone
        · exact hf.done i (done_of_waited htracked (List.all_eq_true.mp hall i hmem))
        · exact hf.done i hdone
      · exact flush_follows (h.flushes f flush hflush) hf
    · rw [hset] at hflush
      rcases getElem?_set_cases hflush with ⟨-, rfl⟩ | ⟨-, hflush⟩
      · trivial
      · exact flush_follows (h.flushes f flush hflush) hf

theorem settling_cancelled {l : SyncLabel} (h : Settling s) (hordered : Ordered s)
    (hs : s.step l = some t) : ∀ (i : ℕ) task, t.submissions[i]? = some task →
      task.future = .cancelled true → t.TimedOut := by
  intro i task hi hclose
  have hkept : s.TimedOut → t.TimedOut := timedOut_step hs
  rcases submissions_cases hordered hs with hsame | ⟨-, happend⟩ |
    ⟨j, old, new, hold, hset, -, hblame⟩
  · rw [hsame] at hi
    exact hkept (h.cancelled i task hi hclose)
  · rw [happend] at hi
    rcases getElem?_concat_cases hi with hi | ⟨-, rfl⟩
    · exact hkept (h.cancelled i task hi hclose)
    · cases hclose
  · rw [hset] at hi
    rcases getElem?_set_cases hi with ⟨-, rfl⟩ | ⟨-, hi⟩
    · rcases hblame hclose with hblame | hblame
      · exact hkept (h.cancelled j old hold hblame)
      · exact hkept hblame
    · exact hkept (h.cancelled i task hi hclose)

theorem settling_ended {l : SyncLabel} (h : Settling s) (hordered : Ordered s)
    (hs : s.step l = some t) (hloop : t.loop = .closed) :
    t.submissions.all SubmissionTask.taskEnded = true := by
  rcases (loop_cases hordered hs).2.2 hloop with hclosed | ⟨hall, hsame⟩
  · have hall := h.ended hclosed
    rcases submissions_cases hordered hs with hsame | ⟨hopen, -⟩ |
      ⟨j, old, new, hold, hset, hend, -⟩
    · rw [hsame]
      exact hall
    · have hshut := h.shut (.inl (by rw [hclosed]; decide))
      rw [hopen] at hshut
      cases hshut
    · rw [hset, List.all_eq_true]
      intro task hmem
      rcases List.mem_or_eq_of_mem_set hmem with hmem | rfl
      · exact List.all_eq_true.mp hall task hmem
      · exact hend (List.all_eq_true.mp hall old (List.mem_of_getElem? hold))
  · rw [hsame]
    exact hall

theorem settling_step {l : SyncLabel} (h : Settling s) (hordered : Ordered s) (htracked : Tracked s)
    (hs : s.step l = some t) : Settling t := by
  obtain ⟨hmono, hcloses⟩ := closes_cases hs
  obtain ⟨hclosed, hshut, -⟩ := loop_cases hordered hs
  refine ⟨settling_flushes h htracked hs, settling_cancelled h hordered hs, ?_, ?_, ?_,
    settling_ended h hordered hs⟩
  · intro c call hc hshuts
    rcases hcloses with hsame | happend | ⟨j, old, new, hold, hset, -, hbuilder⟩
    · rw [hsame] at hc
      exact Nat.le_trans (h.builder c call hc hshuts) hmono
    · rw [happend] at hc
      rcases getElem?_concat_cases hc with hc | ⟨-, rfl⟩
      · exact Nat.le_trans (h.builder c call hc hshuts) hmono
      · cases hshuts
    · rw [hset] at hc
      rcases getElem?_set_cases hc with ⟨-, rfl⟩ | ⟨-, hc⟩
      · rcases hbuilder hshuts with hshuts | hone
        · exact Nat.le_trans (h.builder j old hold hshuts) hmono
        · exact hone
      · exact Nat.le_trans (h.builder c call hc hshuts) hmono
  · intro hnow
    have hgone : s.isOpen = false → (∀ i, ¬ s.Undone i) → ∀ i, ¬ t.Undone i :=
      fun hopen hnone i hi => hnone i (((follows_step hs).shut hopen).2.2.2 i hi)
    rcases hclosed with hsame | ⟨c, call, hc, hshuts⟩
    · rw [hsame] at hnow
      obtain ⟨hone, hnone⟩ := h.closed hnow
      exact ⟨Nat.le_trans hone hmono, hgone (shut_of_closed hnow) hnone⟩
    · obtain ⟨hopen, hnone⟩ := shuts_holds (hordered.holds c call hc) hshuts
      exact ⟨Nat.le_trans (h.builder c call hc hshuts) hmono, hgone hopen hnone⟩
  · intro hstop
    have hkept : s.isOpen = false → t.isOpen = false := fun hs' => ((follows_step hs).shut hs').1
    rcases hshut with ⟨hloop, hdeferred⟩ | hloop | hdeferred | hshut
    · rw [hloop, hdeferred] at hstop
      exact hkept (h.shut hstop)
    · exact hkept (h.shut (.inl hloop))
    · exact hkept (h.shut (.inr hdeferred))
    · exact hshut

/-! ## Runs -/

theorem max_step {l : SyncLabel} (hs : s.step l = some t) :
    t.maxPendingSubmissions = s.maxPendingSubmissions := by
  cases step_cases hs with
  | refuses ht | accepts _ _ ht | callsClose ht | ends _ _ _ _ _ ht | callsFlush _ _ ht
  | captures _ _ _ ht | requests _ _ ht | closesLoop _ _ ht =>
    subst ht
    rfl
  | schedules ht | flushes _ _ _ _ _ ht => rcases ht with ⟨-, ht⟩ | ht <;> subst ht <;> rfl
  | submission _ i task _ hmove =>
    obtain ⟨submissions, pending, ht⟩ := hmove.rest
    subst ht
    rfl
  | closes _ c call hc hmove => exact hmove.rest.2

structure Sound (maxPending : ℕ) (s : SyncShutdown) : Prop where
  tracked : Tracked s
  ordered : Ordered s
  settling : Settling s
  max : s.maxPendingSubmissions = maxPending

theorem sound_new (maxPending : ℕ) (closeBuilder : Bool) :
    Sound maxPending (new maxPending closeBuilder) := by
  refine ⟨⟨?_, ?_, Nat.zero_le _⟩, ⟨?_, ?_, ?_, fun _ _ => rfl, Nat.zero_le _⟩,
    ⟨?_, ?_, ?_, ?_, ?_, fun _ => rfl⟩, rfl⟩
  · intro i task hi
    cases hi
  · intro i task hi
    cases hi
  · intro c call hc
    cases hc
  · intro c call hc
    cases hc
  · intro c call hc
    cases hc
  · intro f flush hf
    cases hf
  · intro i task hi
    cases hi
  · intro c call hc
    cases hc
  · intro hclosed
    cases hclosed
  · rintro (hloop | hdeferred)
    · exact absurd rfl hloop
    · cases hdeferred

theorem sound_run {maxPending : ℕ} {closeBuilder : Bool} {ls : List SyncLabel}
    (h : Run step (new maxPending closeBuilder) ls s) : Sound maxPending s := by
  refine h.invariant (Sound maxPending) ?_ (sound_new maxPending closeBuilder)
  intro s l t _ hsound hs
  exact ⟨tracked_step hsound.tracked hs, ordered_step hsound.ordered hsound.tracked hs,
    settling_step hsound.settling hsound.ordered hsound.tracked hs,
    (max_step hs).trans hsound.max⟩

theorem follows_run {ls : List SyncLabel} (h : Run step s ls t) : Follows s t :=
  h.related Follows Follows.refl Follows.trans fun _ _ _ _ hs => follows_step hs

/-- Of two submissions the second outlasts the first wait of `close` and is cancelled. -/
def closesOverOne : List SyncLabel :=
  [.submit, .register 0, .submit, .register 1, .taskEnds 0, .notify 0, .discard 0, .callFlush,
    .flush 0 false, .callClose, .close 0 false, .submit, .close 0 true, .closeCancels 0 1,
    .close 0 false, .discard 1, .taskEnds 1, .notify 1, .flush 0 false, .close 0 false,
    .builderEnds 0 .closed, .close 0 false, .loopCloses, .close 0 false]

end

end SyncShutdown
end Coalestra
