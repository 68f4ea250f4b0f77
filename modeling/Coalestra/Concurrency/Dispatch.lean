import Mathlib.Data.List.Basic
import Mathlib.Data.List.Nodup

/-! # Bounded dispatch

`concurrency/dispatch.py`: `run_bounded` starts a fixed number of workers that take one item after
another. When an operation raises or the caller is cancelled, every worker is cancelled, and the call
ends only after all of them have. An operation takes effect at one moment between its start and its
end, also when it has been cancelled meanwhile. -/

namespace Coalestra
set_option autoImplicit false
set_option maxHeartbeats 250000

inductive JobPhase (R : Type)
  | waiting
  | running
  | effected (r : R)
  | ended (r : R)
  | failed

/-- A `run_bounded` call. `idle` counts the workers between two items. -/
structure Dispatch (A R : Type) where
  jobs : List (A × JobPhase R)
  nextIndex : ℕ
  idle : ℕ
  stopping : Bool

inductive DispatchEvent
  | start
  | effect (j : ℕ)
  | ends (j : ℕ)
  | fails (j : ℕ)
  | cancel
  deriving DecidableEq, Repr

section
variable {A R : Type}

/-- The operation is in the hands of a worker. -/
def JobPhase.inFlight : JobPhase R → Bool
  | .running => true
  | .effected _ => true
  | _ => false

/-- The operation has not taken effect and still may. -/
def JobPhase.pending : JobPhase R → Bool
  | .waiting => true
  | .running => true
  | _ => false

def JobPhase.answer : JobPhase R → Option R
  | .effected r => some r
  | .ended r => some r
  | _ => none

def JobPhase.result : JobPhase R → Option R
  | .ended r => some r
  | _ => none

namespace Dispatch

def new (maxTasks : ℕ) (items : List A) : Dispatch A R :=
  ⟨items.map fun a => (a, .waiting), 0, min maxTasks items.length, false⟩

def items (d : Dispatch A R) : List A := d.jobs.map Prod.fst

def setJob (d : Dispatch A R) (j : ℕ) (a : A) (phase : JobPhase R) : Dispatch A R :=
  { d with jobs := d.jobs.set j (a, phase) }

/-- The next step of a worker, or of the caller. `answer` is what an operation that takes effect now
comes back with. -/
def step (answer : A → R) (d : Dispatch A R) : DispatchEvent → Option (Dispatch A R)
  | .start =>
    match d.jobs[d.nextIndex]? with
    | some (a, .waiting) =>
      if d.idle = 0 then none
      else some { d.setJob d.nextIndex a .running with
        nextIndex := d.nextIndex + 1
        idle := d.idle - 1 }
    | _ => none
  | .effect j =>
    match d.jobs[j]? with
    | some (a, .running) => some (d.setJob j a (.effected (answer a)))
    | _ => none
  | .ends j =>
    match d.jobs[j]? with
    | some (a, .effected r) => some { d.setJob j a (.ended r) with idle := d.idle + 1 }
    | _ => none
  | .fails j =>
    match d.jobs[j]? with
    | some (a, phase) =>
      if phase.inFlight then some { d.setJob j a .failed with stopping := true } else none
    | none => none
  | .cancel => some { d with stopping := true }

/-- The item whose operation takes effect with this event. -/
def effecting (d : Dispatch A R) : DispatchEvent → Option A
  | .effect j => d.jobs[j]?.map Prod.fst
  | _ => none

/-- No worker has an operation in its hands. -/
def quiet (d : Dispatch A R) : Bool := d.jobs.all fun job => !job.2.inFlight

/-- What the call returns, once every operation has ended. -/
def results (d : Dispatch A R) : Option (List (A × R)) :=
  if d.stopping then none else d.jobs.mapM fun job => job.2.result.map fun r => (job.1, r)

/-! ## What a step keeps -/

/-- Every answer meets `P`. -/
def Answered (P : A → R → Prop) (d : Dispatch A R) : Prop :=
  ∀ a phase r, (a, phase) ∈ d.jobs → phase.answer = some r → P a r

/-- Every operation that has not taken effect meets `Q`. -/
def Pending (Q : A → Prop) (d : Dispatch A R) : Prop :=
  ∀ a phase, (a, phase) ∈ d.jobs → phase.pending = true → Q a

/-- What a step may do to the jobs. -/
inductive Change (answer : A → R) (d d' : Dispatch A R) : DispatchEvent → Prop
  | job (e : DispatchEvent) (j : ℕ) (a : A) (phase phase' : JobPhase R) :
      d.jobs[j]? = some (a, phase) → d'.jobs = d.jobs.set j (a, phase') →
      (phase'.pending = true → phase.pending = true) →
      (phase'.answer = none ∨ phase'.answer = phase.answer) → (∀ i, e ≠ .effect i) →
      Change answer d d' e
  | effect (j : ℕ) (a : A) : d.jobs[j]? = some (a, .running) →
      d'.jobs = d.jobs.set j (a, .effected (answer a)) → Change answer d d' (.effect j)
  | stop : d'.jobs = d.jobs → Change answer d d' .cancel

theorem step_cases {answer : A → R} {d d' : Dispatch A R} {e : DispatchEvent}
    (h : d.step answer e = some d') : Change answer d d' e := by
  cases e with
  | start =>
    simp only [step] at h
    split at h
    · rename_i a hjob
      split at h
      · cases h
      · cases h
        exact .job _ _ a .waiting .running hjob rfl (fun _ => rfl) (.inl rfl) nofun
    · cases h
  | effect j =>
    simp only [step] at h
    split at h
    · rename_i a hjob
      cases h
      exact .effect j a hjob rfl
    · cases h
  | ends j =>
    simp only [step] at h
    split at h
    · rename_i a r hjob
      cases h
      exact .job _ j a _ (.ended r) hjob rfl nofun (.inr rfl) nofun
    · cases h
  | fails j =>
    simp only [step] at h
    split at h
    · rename_i a phase hjob
      split at h
      · cases h
        exact .job _ j a phase .failed hjob rfl nofun (.inl rfl) nofun
      · cases h
    · cases h
  | cancel =>
    cases h
    exact .stop rfl

variable {answer : A → R} {d d' : Dispatch A R} {e : DispatchEvent}

theorem items_set {j : ℕ} {a : A} {phase phase' : JobPhase R}
    (h : d.jobs[j]? = some (a, phase)) :
    (d.jobs.set j (a, phase')).map Prod.fst = d.items := by
  rw [List.map_set, items]
  refine List.ext_getElem? fun i => ?_
  rw [List.getElem?_set]
  split
  · rename_i hij
    subst hij
    rw [List.getElem?_map, h]
    split
    · rfl
    · rename_i hlen
      rw [List.length_map] at hlen
      rw [List.getElem?_eq_none (by omega)] at h
      cases h
  · rfl

/-- The items stay. -/
theorem step_items (h : d.step answer e = some d') : d'.items = d.items := by
  cases step_cases h with
  | job _ j a phase phase' hjob hjobs _ _ _ => rw [items, hjobs, items_set hjob]
  | effect j a hjob hjobs => rw [items, hjobs, items_set hjob]
  | stop hjobs => rw [items, items, hjobs]

theorem step_answered {P : A → R → Prop} (h : d.step answer e = some d')
    (hP : ∀ a, P a (answer a)) (hd : d.Answered P) : d'.Answered P := by
  intro b phase r hb hr
  cases step_cases h with
  | job _ j a phase₀ phase' hjob hjobs _ hanswer _ =>
    rw [hjobs] at hb
    rcases List.mem_or_eq_of_mem_set hb with hb | hb
    · exact hd b phase r hb hr
    · rw [Prod.mk.injEq] at hb
      obtain ⟨rfl, rfl⟩ := hb
      rcases hanswer with hnone | hsame
      · rw [hnone] at hr
        cases hr
      · exact hd b phase₀ r (List.mem_of_getElem? hjob) (hsame ▸ hr)
  | effect j a hjob hjobs =>
    rw [hjobs] at hb
    rcases List.mem_or_eq_of_mem_set hb with hb | hb
    · exact hd b phase r hb hr
    · rw [Prod.mk.injEq] at hb
      obtain ⟨rfl, rfl⟩ := hb
      rw [← Option.some.inj hr]
      exact hP b
  | stop hjobs =>
    rw [hjobs] at hb
    exact hd b phase r hb hr

theorem step_pending {Q : A → Prop} (h : d.step answer e = some d') (hd : d.Pending Q) :
    d'.Pending Q := by
  intro b phase hb hpending
  cases step_cases h with
  | job _ j a phase₀ phase' hjob hjobs hstill _ _ =>
    rw [hjobs] at hb
    rcases List.mem_or_eq_of_mem_set hb with hb | hb
    · exact hd b phase hb hpending
    · rw [Prod.mk.injEq] at hb
      obtain ⟨rfl, rfl⟩ := hb
      exact hd b phase₀ (List.mem_of_getElem? hjob) (hstill hpending)
  | effect j a hjob hjobs =>
    rw [hjobs] at hb
    rcases List.mem_or_eq_of_mem_set hb with hb | hb
    · exact hd b phase hb hpending
    · rw [Prod.mk.injEq] at hb
      obtain ⟨rfl, rfl⟩ := hb
      cases hpending
  | stop hjobs =>
    rw [hjobs] at hb
    exact hd b phase hb hpending

/-- An operation that takes effect has not done so before. -/
theorem step_effecting {Q : A → Prop} {a : A} (h : d.step answer e = some d')
    (hd : d.Pending Q) (he : d.effecting e = some a) : Q a ∧ a ∈ d.items := by
  cases step_cases h with
  | job _ _ _ _ _ _ _ _ _ hnot =>
    cases e with
    | effect j => exact absurd rfl (hnot j)
    | _ => cases he
  | effect j b hjob _ =>
    rw [effecting, hjob, Option.map_some, Option.some.injEq] at he
    subst he
    exact ⟨hd b .running (List.mem_of_getElem? hjob) rfl,
      List.mem_map_of_mem (List.mem_of_getElem? hjob)⟩
  | stop _ => cases he

/-- Of different items the others are still pending when one takes effect. -/
theorem step_effect_pending {Q : A → Prop} {a : A} (h : d.step answer e = some d')
    (hd : d.Pending Q) (hnd : d.items.Nodup) (he : d.effecting e = some a) :
    d'.Pending fun b => Q b ∧ b ≠ a := by
  intro b phase hb hpending
  refine ⟨step_pending h hd b phase hb hpending, ?_⟩
  rintro rfl
  cases step_cases h with
  | job _ _ _ _ _ _ _ _ _ hnot =>
    cases e with
    | effect j => exact absurd rfl (hnot j)
    | _ => cases he
  | stop _ => cases he
  | effect j c hjob hjobs =>
    rw [effecting, hjob, Option.map_some, Option.some.injEq] at he
    subst he
    rw [hjobs] at hb
    obtain ⟨i, hi, hget⟩ := List.getElem_of_mem hb
    rw [List.getElem_set] at hget
    split at hget
    · rw [Prod.mk.injEq] at hget
      rw [← hget.2] at hpending
      cases hpending
    · rename_i hne
      rw [List.length_set] at hi
      have hj : j < d.jobs.length := (List.getElem?_eq_some_iff.mp hjob).1
      have hlen : d.items.length = d.jobs.length := List.length_map _
      have hi' : i < d.items.length := hlen ▸ hi
      have hj' : j < d.items.length := hlen ▸ hj
      have hji : d.items[i] = d.items[j] := by
        simp only [items, List.getElem_map, hget]
        rw [(List.getElem?_eq_some_iff.mp hjob).2]
      exact hne ((List.Nodup.getElem_inj_iff hnd).mp hji).symm

theorem new_pending {Q : A → Prop} {maxTasks : ℕ} {items : List A} (h : ∀ a ∈ items, Q a) :
    (new maxTasks items : Dispatch A R).Pending Q := by
  intro a phase ha _
  obtain ⟨b, hb, heq⟩ := List.mem_map.mp ha
  rw [Prod.mk.injEq] at heq
  exact heq.1 ▸ h b hb

theorem new_answered (P : A → R → Prop) (maxTasks : ℕ) (items : List A) :
    (new maxTasks items : Dispatch A R).Answered P := by
  intro a phase r ha hr
  obtain ⟨b, hb, heq⟩ := List.mem_map.mp ha
  rw [Prod.mk.injEq] at heq
  rw [← heq.2] at hr
  cases hr

@[simp] theorem new_items (maxTasks : ℕ) (l : List A) :
    (new maxTasks l : Dispatch A R).items = l := by
  rw [items, new, List.map_map]
  exact List.map_id l

/-- The results pair every item with its answer. -/
theorem results_spec {P : A → R → Prop} {l : List (A × R)} (h : d.results = some l)
    (hd : d.Answered P) : l.map Prod.fst = d.items ∧ ∀ x ∈ l, P x.1 x.2 := by
  unfold results at h
  split at h
  · cases h
  · have hlist : ∀ (jobs : List (A × JobPhase R)) (l : List (A × R)),
        (∀ a phase r, (a, phase) ∈ jobs → phase.answer = some r → P a r) →
        (jobs.mapM fun job => job.2.result.map fun r => (job.1, r)) = some l →
        l.map Prod.fst = jobs.map Prod.fst ∧ ∀ x ∈ l, P x.1 x.2 := by
      intro jobs
      induction jobs with
      | nil =>
        intro l _ hl
        rw [List.mapM_nil] at hl
        cases hl
        exact ⟨rfl, nofun⟩
      | cons job jobs ih =>
        intro l hjobs hl
        rw [List.mapM_cons] at hl
        obtain ⟨x, hx, hl⟩ := Option.bind_eq_some_iff.mp hl
        obtain ⟨xs, hxs, hl⟩ := Option.bind_eq_some_iff.mp hl
        cases hl
        obtain ⟨r, hr, rfl⟩ := Option.map_eq_some_iff.mp hx
        obtain ⟨hmap, hall⟩ := ih xs
          (fun a phase r ha => hjobs a phase r (List.mem_cons_of_mem _ ha)) hxs
        refine ⟨by rw [List.map_cons, List.map_cons, hmap], fun y hy => ?_⟩
        rcases List.mem_cons.mp hy with rfl | hy
        · refine hjobs job.1 job.2 r List.mem_cons_self ?_
          cases hphase : job.2 with
          | ended r' => rwa [hphase] at hr
          | _ => rw [hphase] at hr; cases hr
        · exact hall y hy
    exact hlist d.jobs l hd h

end Dispatch
end
end Coalestra
