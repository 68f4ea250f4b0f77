import Mathlib.Algebra.BigOperators.Group.List.Basic
import Coalestra.Lib.Dict

/-! # Capacity

The limiters of `concurrency/capacity.py`. A semaphore is its value; a waiter that was handed a slot
holds it until it resumes. A slot is therefore in one of three places: free, on its way to a waiter,
or in use. -/

namespace Coalestra
set_option autoImplicit false
set_option maxHeartbeats 250000

/-- A limiter with the value of its semaphore. -/
structure CapacityLimiter where
  limit : ℕ
  value : ℕ
  inUse : ℕ
  waiting : ℕ

namespace CapacityLimiter

def new (limit : ℕ) : CapacityLimiter := ⟨limit, limit, 0, 0⟩

/-- `acquire` when the semaphore has a slot. -/
def take (l : CapacityLimiter) : CapacityLimiter :=
  { l with value := l.value - 1, inUse := l.inUse + 1 }

/-- `acquire` when it has none. -/
def enqueue (l : CapacityLimiter) : CapacityLimiter := { l with waiting := l.waiting + 1 }

/-- The semaphore hands a slot to a waiter. -/
def grant (l : CapacityLimiter) : CapacityLimiter := { l with value := l.value - 1 }

/-- `acquire` resumes with the slot it was handed. -/
def resume (l : CapacityLimiter) : CapacityLimiter :=
  { l with waiting := l.waiting - 1, inUse := l.inUse + 1 }

/-- `acquire` resumes with a cancellation; a slot it was handed goes back to the semaphore. -/
def abandon (granted : Bool) (l : CapacityLimiter) : CapacityLimiter :=
  { l with waiting := l.waiting - 1, value := if granted then l.value + 1 else l.value }

def release (l : CapacityLimiter) : CapacityLimiter :=
  { l with inUse := l.inUse - 1, value := l.value + 1 }

end CapacityLimiter

/-- `none` is the global limiter. -/
abbrev LimiterId := Option String

structure CapacityController where
  globalLimiter : CapacityLimiter
  sourceLimiters : Dict String CapacityLimiter

namespace CapacityController

/-- A controller whose limits are at least 1. -/
def new (globalLimit : ℕ) (sourceLimits : Dict String ℕ) : CapacityController :=
  ⟨.new globalLimit, Dict.comprehend sourceLimits.keys fun source =>
    (sourceLimits.get? source).map .new⟩

def limiter (c : CapacityController) : LimiterId → Option CapacityLimiter
  | none => some c.globalLimiter
  | some source => c.sourceLimiters.get? source

def modify (c : CapacityController) (f : CapacityLimiter → CapacityLimiter) :
    LimiterId → CapacityController
  | none => { c with globalLimiter := f c.globalLimiter }
  | some source =>
    match c.sourceLimiters.get? source with
    | none => c
    | some l => { c with sourceLimiters := c.sourceLimiters.set source (f l) }

theorem limiter_modify_self (c : CapacityController) (f : CapacityLimiter → CapacityLimiter)
    (id : LimiterId) : (c.modify f id).limiter id = (c.limiter id).map f := by
  cases id with
  | none => rfl
  | some source =>
    rw [modify]
    cases hl : c.sourceLimiters.get? source with
    | none => simp [limiter, hl]
    | some l => simp [limiter, hl]

theorem limiter_modify_ne (c : CapacityController) (f : CapacityLimiter → CapacityLimiter)
    {id other : LimiterId} (h : other ≠ id) : (c.modify f id).limiter other = c.limiter other := by
  cases id with
  | none =>
    cases other with
    | none => exact absurd rfl h
    | some source => rfl
  | some source =>
    rw [modify]
    cases hl : c.sourceLimiters.get? source with
    | none => rfl
    | some l =>
      cases other with
      | none => rfl
      | some source' =>
        refine Dict.get?_set_ne _ _ fun heq => h ?_
        rw [heq]

/-- The limiters a source acquires, in this order. -/
def limitersFor (c : CapacityController) (source : String) : List LimiterId :=
  match c.sourceLimiters.get? source with
  | none => [none]
  | some _ => [some source, none]

theorem limitersFor_nodup (c : CapacityController) (source : String) :
    (c.limitersFor source).Nodup := by
  unfold limitersFor
  split <;> simp

theorem global_mem_limitersFor (c : CapacityController) (source : String) :
    none ∈ c.limitersFor source := by
  unfold limitersFor
  split <;> simp

theorem limitersFor_present (c : CapacityController) (source : String) {id : LimiterId}
    (h : id ∈ c.limitersFor source) : ∃ l, c.limiter id = some l := by
  unfold limitersFor at h
  split at h
  · rw [List.mem_singleton.mp h]
    exact ⟨_, rfl⟩
  · rename_i l hl
    rw [List.mem_cons, List.mem_singleton] at h
    rcases h with rfl | rfl
    · exact ⟨l, hl⟩
    · exact ⟨_, rfl⟩

/-- Where the loop of `CapacityController.acquire` stands. -/
inductive Acquisition
  | created
  | waiting (rest : List LimiterId) (granted : Bool)
  | done
  | stopped
  deriving DecidableEq, Repr

/-- The loop over the limiters until the next semaphore without a slot: the controller, the acquired
limiters and where it stands. -/
def acquireFrom : List LimiterId → List LimiterId → CapacityController →
    CapacityController × List LimiterId × Acquisition
  | [], acquired, c => (c, acquired, .done)
  | id :: rest, acquired, c =>
    if (c.limiter id).any fun l => decide (0 < l.value) then
      acquireFrom rest (acquired ++ [id]) (c.modify .take id)
    else (c.modify .enqueue id, acquired, .waiting (id :: rest) false)

/-- `limiter.release()` for each of the limiters; `none` is the `RuntimeError` of a release without a
matching acquire. -/
def releaseAll : List LimiterId → CapacityController → Option CapacityController
  | [], c => some c
  | id :: rest, c =>
    if (c.limiter id).any fun l => decide (0 < l.inUse) then releaseAll rest (c.modify .release id)
    else none

/-! ## Where the slots are -/

/-- The slot of `id` on its way to this acquisition. -/
def Acquisition.handed (id : LimiterId) : Acquisition → ℕ
  | .waiting (first :: _) granted => if granted = true ∧ first = id then 1 else 0
  | _ => 0

@[simp] theorem handed_created (id : LimiterId) : Acquisition.created.handed id = 0 := rfl

@[simp] theorem handed_done (id : LimiterId) : Acquisition.done.handed id = 0 := rfl

@[simp] theorem handed_stopped (id : LimiterId) : Acquisition.stopped.handed id = 0 := rfl

@[simp] theorem handed_waiting (id first : LimiterId) (rest : List LimiterId) (granted : Bool) :
    (Acquisition.waiting (first :: rest) granted).handed id =
      if granted = true ∧ first = id then 1 else 0 := rfl

/-- The slots of one call: on their way, acquired and released. -/
structure Slots where
  acquisition : Acquisition
  acquired : List LimiterId
  releases : List LimiterId

/-- A step of one call moves slots and creates none. -/
def Balanced (c c' : CapacityController) (p p' : Slots) : Prop :=
  ∀ id, (c'.limiter id = none ↔ c.limiter id = none) ∧
    ∀ l l', c.limiter id = some l → c'.limiter id = some l' → l'.limit = l.limit ∧
      l'.value + l'.inUse + p'.acquisition.handed id = l.value + l.inUse + p.acquisition.handed id ∧
      l'.inUse + p'.releases.count id + p.acquired.count id =
        l.inUse + p.releases.count id + p'.acquired.count id

theorem Balanced.refl (c : CapacityController) {p p' : Slots}
    (hhanded : ∀ id, p'.acquisition.handed id = p.acquisition.handed id)
    (hacquired : p'.acquired = p.acquired) (hreleases : p'.releases = p.releases) :
    Balanced c c p p' := by
  refine fun id => ⟨Iff.rfl, fun l l' hl hl' => ?_⟩
  rw [hl, Option.some.injEq] at hl'
  rw [← hl', hacquired, hreleases, hhanded]
  omega

theorem Balanced.trans {c c' c'' : CapacityController} {p p' p'' : Slots} (h : Balanced c c' p p')
    (h' : Balanced c' c'' p' p'') : Balanced c c'' p p'' := by
  refine fun id => ⟨(h' id).1.trans (h id).1, fun l l'' hl hl'' => ?_⟩
  cases hmid : c'.limiter id with
  | none =>
    rw [(h id).1.mp hmid] at hl
    cases hl
  | some l' =>
    have h1 := (h id).2 l l' hl hmid
    have h2 := (h' id).2 l' l'' hmid hl''
    omega

/-- A step that touches one limiter. -/
theorem Balanced.modify {c : CapacityController} {f : CapacityLimiter → CapacityLimiter}
    {first : LimiterId} {p p' : Slots}
    (hself : ∀ l, c.limiter first = some l → (f l).limit = l.limit ∧
      (f l).value + (f l).inUse + p'.acquisition.handed first =
        l.value + l.inUse + p.acquisition.handed first ∧
      (f l).inUse + p'.releases.count first + p.acquired.count first =
        l.inUse + p.releases.count first + p'.acquired.count first)
    (hother : ∀ id, id ≠ first → p'.acquisition.handed id = p.acquisition.handed id ∧
      p'.releases.count id + p.acquired.count id = p.releases.count id + p'.acquired.count id) :
    Balanced c (c.modify f first) p p' := by
  intro id
  by_cases hid : id = first
  · subst hid
    rw [limiter_modify_self]
    refine ⟨Option.map_eq_none_iff, fun l l' hl hl' => ?_⟩
    rw [hl, Option.map_some, Option.some.injEq] at hl'
    rw [← hl']
    exact hself l hl
  · rw [limiter_modify_ne c f hid]
    refine ⟨Iff.rfl, fun l l' hl hl' => ?_⟩
    rw [hl, Option.some.injEq] at hl'
    rw [← hl']
    have := hother id hid
    omega

theorem acquireFrom_balanced : ∀ (rest acquired : List LimiterId) (c : CapacityController)
    (releases : List LimiterId) (before : Acquisition), (∀ id, before.handed id = 0) →
    Balanced c (acquireFrom rest acquired c).1 ⟨before, acquired, releases⟩
      ⟨(acquireFrom rest acquired c).2.2, (acquireFrom rest acquired c).2.1, releases⟩
  | [], acquired, c, releases, before, hbefore =>
      Balanced.refl c (fun id => (hbefore id).symm) rfl rfl
  | id :: rest, acquired, c, releases, before, hbefore => by
      rw [acquireFrom]
      split
      · rename_i hfree
        have htake : Balanced c (c.modify .take id) ⟨before, acquired, releases⟩
            ⟨.created, acquired ++ [id], releases⟩ := by
          refine Balanced.modify (fun l hl => ?_) fun other hother => ?_
          · rw [hl, Option.any_some, decide_eq_true_eq] at hfree
            simp only [CapacityLimiter.take, hbefore, handed_created, List.count_append,
              List.count_singleton_self, true_and]
            omega
          · simp [hbefore, Ne.symm hother]
        exact htake.trans (acquireFrom_balanced rest (acquired ++ [id]) _ releases .created
          fun _ => rfl)
      · refine Balanced.modify (fun l _ => ?_) fun other hother => ?_
        · simp [CapacityLimiter.enqueue, hbefore]
        · simp [hbefore]

/-- Limiters that are in use can be released, one after the other. -/
theorem releaseAll_balanced : ∀ (ids : List LimiterId) (c : CapacityController)
    (acquired releases : List LimiterId) (a : Acquisition), ids.Nodup →
    (∀ id ∈ ids, ∃ l, c.limiter id = some l ∧ 0 < l.inUse) →
    ∃ c', releaseAll ids c = some c' ∧
      Balanced c c' ⟨a, acquired, releases⟩ ⟨a, acquired, releases ++ ids⟩
  | [], c, acquired, releases, a, _, _ =>
      ⟨c, rfl, Balanced.refl c (fun _ => rfl) rfl (List.append_nil _)⟩
  | id :: rest, c, acquired, releases, a, hnodup, hused => by
      obtain ⟨l, hl, hpos⟩ := hused id List.mem_cons_self
      rw [List.nodup_cons] at hnodup
      have hrest : ∀ other ∈ rest, ∃ l, (c.modify .release id).limiter other = some l ∧
          0 < l.inUse := by
        intro other hother
        have hne : other ≠ id := by
          rintro rfl
          exact hnodup.1 hother
        rw [limiter_modify_ne c _ hne]
        exact hused other (List.mem_cons_of_mem _ hother)
      obtain ⟨c', hc', hbalanced⟩ := releaseAll_balanced rest (c.modify .release id) acquired
        (releases ++ [id]) a hnodup.2 hrest
      refine ⟨c', ?_, ?_⟩
      · rw [releaseAll, if_pos, hc']
        rw [hl, Option.any_some]
        exact decide_eq_true hpos
      · have hfirst : Balanced c (c.modify .release id) ⟨a, acquired, releases⟩
            ⟨a, acquired, releases ++ [id]⟩ := by
          refine Balanced.modify (fun l' hl' => ?_) fun other hother => ?_
          · rw [hl, Option.some.injEq] at hl'
            rw [← hl']
            simp only [CapacityLimiter.release, List.count_append, List.count_singleton_self,
              true_and]
            omega
          · simp [Ne.symm hother]
        rw [List.append_assoc, List.singleton_append] at hbalanced
        exact hfirst.trans hbalanced

/-- The loop stops at the end or waits for one of its limiters. -/
theorem acquireFrom_cases : ∀ (rest acquired : List LimiterId) (c : CapacityController),
    ((acquireFrom rest acquired c).2.2 = .done ∧
      (acquireFrom rest acquired c).2.1 = acquired ++ rest) ∨
    ∃ pre id post, (acquireFrom rest acquired c).2.2 = .waiting (id :: post) false ∧
      (acquireFrom rest acquired c).2.1 = acquired ++ pre ∧ rest = pre ++ id :: post
  | [], acquired, c => .inl ⟨rfl, (List.append_nil _).symm⟩
  | id :: rest, acquired, c => by
      rw [acquireFrom]
      split
      · rcases acquireFrom_cases rest (acquired ++ [id]) (c.modify .take id) with
          ⟨hdone, hacquired⟩ | ⟨pre, next, post, hwaiting, hacquired, hsplit⟩
        · left
          refine ⟨hdone, ?_⟩
          rw [hacquired, List.append_assoc, List.singleton_append]
        · right
          refine ⟨id :: pre, next, post, hwaiting, ?_, by rw [hsplit, List.cons_append]⟩
          rw [hacquired, List.append_assoc, List.singleton_append]
      · exact .inr ⟨[], id, rest, rfl, (List.append_nil _).symm, rfl⟩

end CapacityController
end Coalestra
