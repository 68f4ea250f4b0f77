import Mathlib.Data.List.Sort
import Coalestra.Cache.Legacy
import Coalestra.Concurrency.Dispatch
import Coalestra.Lib.OrderedLocks

/-! # Publisher locks

`cache/publisher.py`: concurrent `publish_many` and `invalidate_many` calls under the striped locks of
`_locked_keys`, over a cache with `get`, `set` and `invalidate`. A call takes the stripes of its keys
in ascending order, runs its cache operations through `run_bounded` and gives the locks back on every
way out. -/

namespace Coalestra
set_option autoImplicit false
set_option maxHeartbeats 250000

open AsyncMemoryCache

/-! ## Stripes -/

/-- `_locks`: how many there are, and the hash that picks one. -/
structure LockStripes (K : Type) where
  hash : K → ℤ
  count : ℕ
  count_pos : 1 ≤ count

namespace LockStripes
variable {K : Type}

/-- `hash(key) % len(self._locks)`. -/
def stripe (locks : LockStripes K) (key : K) : ℕ := (locks.hash key % locks.count).toNat

/-- `indexes` of `_locked_keys`. -/
def indexes (locks : LockStripes K) (keys : List K) : List ℕ :=
  (keys.map locks.stripe).dedup.insertionSort (· ≤ ·)

theorem stripe_lt (locks : LockStripes K) (key : K) : locks.stripe key < locks.count := by
  have hpos : (0 : ℤ) < locks.count := by
    have := locks.count_pos
    omega
  have hlt := Int.emod_lt_of_pos (locks.hash key) hpos
  have hnonneg := Int.emod_nonneg (locks.hash key) hpos.ne'
  rw [stripe]
  omega

theorem mem_indexes {locks : LockStripes K} {keys : List K} {l : ℕ} :
    l ∈ locks.indexes keys ↔ ∃ k ∈ keys, locks.stripe k = l := by
  rw [indexes, List.mem_insertionSort, List.mem_dedup, List.mem_map]

theorem indexes_ascending (locks : LockStripes K) (keys : List K) :
    (locks.indexes keys).Pairwise (· < ·) := by
  have hle : (locks.indexes keys).Pairwise (· ≤ ·) := List.pairwise_insertionSort _ _
  have hne : (locks.indexes keys).Pairwise (· ≠ ·) :=
    (List.perm_insertionSort _ _).nodup_iff.mpr (List.nodup_dedup _)
  exact (hle.and hne).imp fun h => lt_of_le_of_ne h.1 h.2

end LockStripes

/-! ## Calls -/

inductive PublisherCall (K V : Type)
  | publishMany (updates : List (ResourceUpdate K V)) (force replaceEqual : Bool)
  | invalidateMany (keys : List K)

/-- Where a call stands between two awaits. -/
inductive PublicationPhase (K V : Type)
  | locking
  | reading (now : ℚ) (d : Dispatch K (Option (SnapshotValue K V)))
  | preparing (now : ℚ) (previous : List (K × Option (SnapshotValue K V)))
  | writing (d : Dispatch (SnapshotValue K V) Unit)
  | invalidating (d : Dispatch K Unit)
  | ended

/-- A publisher over a plain cache. -/
structure PlainPublisher (K V : Type) [DecidableEq K] where
  publisher : ResourcePublisher K V
  cache : SingleKeyCache K V
  locks : LockStripes K
  maxPendingTasks : ℕ
  maxPendingTasks_pos : 1 ≤ maxPendingTasks

/-- The locks, the calls in the order they came, and what the cache holds. -/
structure PublisherState (K V : Type) [DecidableEq K] where
  table : LockTable
  calls : List (PublisherCall K V × PublicationPhase K V)
  entries : CacheEntries K V

/-- `begin` is what a call does from its last lock to its next await, `stop` is an exception or a
cancellation that reaches it while none of its operations runs. -/
inductive LockingEvent (K V : Type)
  | call (c : PublisherCall K V)
  | resume (i : ℕ)
  | begin (i : ℕ) (now : ℚ)
  | dispatch (i : ℕ) (e : DispatchEvent)
  | read (i : ℕ)
  | prepare (i : ℕ) (version : ℕ)
  | finish (i : ℕ)
  | stop (i : ℕ)

section
variable {K V : Type} [DecidableEq K]

/-- The distinct keys of a call. -/
def PublisherCall.keys : PublisherCall K V → List K
  | publishMany updates _ _ => Dict.fromKeys (updates.map ResourceUpdate.key)
  | invalidateMany keys => Dict.fromKeys keys

/-- The call holds all its locks and may use the cache. -/
def PublicationPhase.holding : PublicationPhase K V → Bool
  | .locking => false
  | .ended => false
  | _ => true

/-- The values `_set_many_legacy` writes. -/
def PlainPublisher.writes (p : PlainPublisher K V) (now : ℚ) (version : ℕ)
    (updates : List (ResourceUpdate K V)) (force replaceEqual : Bool)
    (previous : List (K × Option (SnapshotValue K V))) : List (SnapshotValue K V) :=
  (legacyWrites (fun k => (Dict.find previous k).join) force replaceEqual
    (p.publisher.prepareCandidates now version (p.publisher.selectUpdates now updates).values)).map
      (SnapshotValue.clone p.publisher.copier)

namespace PublisherState

def new (entries : CacheEntries K V) : PublisherState K V := ⟨.new, [], entries⟩

def setPhase (s : PublisherState K V) (i : ℕ) (c : PublisherCall K V) (phase : PublicationPhase K V) :
    PublisherState K V :=
  { s with calls := s.calls.set i (c, phase) }

/-- The `finally` of `_locked_keys`, and the end of the call. -/
def leave (s : PublisherState K V) (i : ℕ) (c : PublisherCall K V) : PublisherState K V :=
  { s.setPhase i c .ended with table := s.table.leave i }

/-- A step of the operations of one call, and what it does to the cache. -/
def dispatchStep (p : PlainPublisher K V) (entries : CacheEntries K V) (e : DispatchEvent) :
    PublicationPhase K V → Option (PublicationPhase K V × CacheEntries K V)
  | .reading now d =>
    (d.step (fun k => ((p.cache.serve entries).get k now .allValues).value) e).map fun d' =>
      (.reading now d', entries)
  | .writing d => (d.step (fun _ => ()) e).map fun d' =>
      (.writing d', (d.effecting e).elim entries entries.put)
  | .invalidating d => (d.step (fun _ => ()) e).map fun d' =>
      (.invalidating d', (d.effecting e).elim entries entries.pop)
  | _ => none

/-- No operation of the call runs, and the exception that ends it has reached it. -/
def stopped : PublicationPhase K V → Bool
  | .locking => true
  | .reading _ d => d.stopping && d.quiet
  | .preparing _ _ => true
  | .writing d => d.stopping && d.quiet
  | .invalidating d => d.stopping && d.quiet
  | .ended => false

def step (p : PlainPublisher K V) (s : PublisherState K V) :
    LockingEvent K V → Option (PublisherState K V)
  | .call c =>
    -- A call without keys returns before it takes any lock.
    if c.keys = [] then some s
    else some { s with
      table := s.table.arrive (p.locks.indexes c.keys)
      calls := s.calls ++ [(c, .locking)] }
  | .resume i => (s.table.resume i).map fun table => { s with table := table }
  | .begin i now =>
    match s.calls[i]? with
    | some (c, .locking) =>
      if (s.table.party i).needed = [] then
        match c with
        | .publishMany updates _ _ =>
          if updates.all (p.publisher.accepts now) then
            some (s.setPhase i c (.reading now (.new p.maxPendingTasks c.keys)))
          else some (s.leave i c)
        | .invalidateMany _ =>
          some (s.setPhase i c (.invalidating (.new p.maxPendingTasks c.keys)))
      else none
    | _ => none
  | .dispatch i e =>
    match s.calls[i]? with
    | some (c, phase) => (dispatchStep p s.entries e phase).map fun r =>
        { s.setPhase i c r.1 with entries := r.2 }
    | none => none
  | .read i =>
    match s.calls[i]? with
    | some (c, .reading now d) => d.results.map fun previous =>
        s.setPhase i c (.preparing now (previous.map fun r =>
          (r.1, r.2.map (SnapshotValue.clone p.publisher.copier))))
    | _ => none
  | .prepare i version =>
    match s.calls[i]? with
    | some (.publishMany updates force replaceEqual, .preparing now previous) =>
      some (s.setPhase i (.publishMany updates force replaceEqual) (.writing
        (.new p.maxPendingTasks (p.writes now version updates force replaceEqual previous))))
    | _ => none
  | .finish i =>
    match s.calls[i]? with
    | some (c, .writing d) => d.results.map fun _ => s.leave i c
    | some (c, .invalidating d) => d.results.map fun _ => s.leave i c
    | _ => none
  | .stop i =>
    match s.calls[i]? with
    | some (c, phase) => if stopped phase then some (s.leave i c) else none
    | none => none

/-! ## What holds in every state -/

/-- The call is between its last lock and its end, its operations included. -/
def Critical (s : PublisherState K V) (i : ℕ) (c : PublisherCall K V) : Prop :=
  ∃ phase, s.calls[i]? = some (c, phase) ∧
    match phase with
    | .locking => (s.table.party i).needed = []
    | .ended => False
    | _ => True

/-- The locks of a call in a phase. -/
def LocksOf (p : PlainPublisher K V) (party : LockParty) (c : PublisherCall K V) :
    PublicationPhase K V → Prop
  | .locking => ∃ held needed, party = .taking held needed ∧
      held ++ needed = p.locks.indexes c.keys
  | .ended => party = .gone
  | _ => party = .taking (p.locks.indexes c.keys) []

/-- A value that may be stored over an entry without lowering its stamp. -/
def Admissible (e : CacheEntries K V) (c : PublisherCall K V) (v : SnapshotValue K V) : Prop :=
  match c with
  | .publishMany _ force _ => force = false → ∀ w, e.get? v.key = some w → stamp w ≤ stamp v
  | .invalidateMany _ => False

/-- What a call has read is what the cache still holds, and what it has not written yet may be
written. -/
def Fresh (p : PlainPublisher K V) (e : CacheEntries K V) (c : PublisherCall K V) :
    PublicationPhase K V → Prop
  | .reading _ d => d.items = c.keys ∧ d.Answered fun k r => r = e.get? k
  | .preparing _ previous => ∀ k ∈ c.keys, (Dict.find previous k).join =
      (e.get? k).map (SnapshotValue.clone p.publisher.copier)
  | .writing d => (d.items.map SnapshotValue.key).Nodup ∧ (∀ v ∈ d.items, v.key ∈ c.keys) ∧
      d.Pending (Admissible e c)
  | .invalidating d => d.items = c.keys
  | _ => True

structure Sound (p : PlainPublisher K V) (s : PublisherState K V) : Prop where
  table : s.table.Sound
  length : s.calls.length = s.table.parties.length
  locks : ∀ (i : ℕ) c phase, s.calls[i]? = some (c, phase) → LocksOf p (s.table.party i) c phase
  fresh : ∀ (i : ℕ) c phase, s.calls[i]? = some (c, phase) → Fresh p s.entries c phase

variable {p : PlainPublisher K V} {s t : PublisherState K V} {i : ℕ} {c : PublisherCall K V}
  {phase phase' : PublicationPhase K V} {e e' : CacheEntries K V}

theorem sound_new (p : PlainPublisher K V) (entries : CacheEntries K V) : (new entries).Sound p :=
  ⟨LockTable.sound_new, rfl, nofun, nofun⟩

theorem fromKeys_ne_nil {keys : List K} {k : K} (h : k ∈ keys) : Dict.fromKeys keys ≠ [] :=
  List.ne_nil_of_mem (Dict.mem_fromKeys.mpr h)

theorem keys_nodup (c : PublisherCall K V) : c.keys.Nodup := by
  cases c <;> exact Dict.nodup_fromKeys _

/-- Only the keys of the call count. -/
theorem Fresh.congr (h : Fresh p e c phase) (heq : ∀ k ∈ c.keys, e'.get? k = e.get? k) :
    Fresh p e' c phase := by
  cases phase with
  | reading now d =>
    refine ⟨h.1, fun k jobPhase r hk hr => ?_⟩
    have hmem : k ∈ c.keys := h.1 ▸ List.mem_map_of_mem hk
    exact (h.2 k jobPhase r hk hr).trans (heq k hmem).symm
  | preparing now previous =>
    intro k hk
    rw [heq k hk]
    exact h k hk
  | writing d =>
    refine ⟨h.1, h.2.1, fun v jobPhase hv hpending => ?_⟩
    have hmem : v.key ∈ c.keys := h.2.1 v (List.mem_map_of_mem hv)
    have hold := h.2.2 v jobPhase hv hpending
    cases c with
    | publishMany updates force replaceEqual =>
      intro hforce w hw
      rw [heq _ hmem] at hw
      exact hold hforce w hw
    | invalidateMany keys => exact hold
  | invalidating d => exact h
  | _ => trivial

theorem locksOf_holding {party : LockParty} (h : LocksOf p party c phase)
    (hphase : phase.holding = true) : party = .taking (p.locks.indexes c.keys) [] := by
  cases phase <;> first | exact h | cases hphase

/-- Two calls that share a key do not both hold their locks. -/
theorem Sound.exclusive (h : s.Sound p) {j : ℕ} {c' : PublisherCall K V} {k : K}
    (hi : s.table.party i = .taking (p.locks.indexes c.keys) [])
    (hj : s.table.party j = .taking (p.locks.indexes c'.keys) []) (hk : k ∈ c.keys)
    (hk' : k ∈ c'.keys) : i = j := by
  refine h.table.exclusive i j (p.locks.stripe k) ?_ ?_
  · rw [hi]
    exact LockStripes.mem_indexes.mpr ⟨k, hk, rfl⟩
  · rw [hj]
    exact LockStripes.mem_indexes.mpr ⟨k, hk', rfl⟩

theorem setPhase_calls (s : PublisherState K V) (i : ℕ) (c : PublisherCall K V)
    (phase : PublicationPhase K V) {j : ℕ} {d : PublisherCall K V} {q : PublicationPhase K V}
    (h : (s.setPhase i c phase).calls[j]? = some (d, q)) :
    (j = i ∧ d = c ∧ q = phase) ∨ j ≠ i ∧ s.calls[j]? = some (d, q) := by
  rw [setPhase, List.getElem?_set] at h
  split at h
  · rename_i hij
    split at h
    · rw [Option.some.injEq, Prod.mk.injEq] at h
      exact .inl ⟨hij.symm, h.1.symm, h.2.symm⟩
    · cases h
  · rename_i hij
    exact .inr ⟨fun hji => hij hji.symm, h⟩

/-- A call moves on and may write under its own keys. -/
theorem Sound.advance (h : s.Sound p) (hi : s.calls[i]? = some (c, phase))
    (hlocks : LocksOf p (s.table.party i) c phase') (hfresh : Fresh p e c phase')
    (hothers : ∀ k, e.get? k ≠ s.entries.get? k → k ∈ c.keys ∧ phase.holding = true) :
    ({ s.setPhase i c phase' with entries := e } : PublisherState K V).Sound p := by
  refine ⟨h.table, ?_, fun j d q hj => ?_, fun j d q hj => ?_⟩
  · show (s.calls.set i (c, phase')).length = _
    rw [List.length_set]
    exact h.length
  · rcases setPhase_calls s i c phase' hj with ⟨rfl, rfl, rfl⟩ | ⟨-, hj⟩
    · exact hlocks
    · exact h.locks j d q hj
  · rcases setPhase_calls s i c phase' hj with ⟨rfl, rfl, rfl⟩ | ⟨hne, hj⟩
    · exact hfresh
    · -- Another call with one of these keys would hold the stripe too.
      by_cases hholding : q.holding = true
      · refine (h.fresh j d q hj).congr fun k hk => ?_
        by_contra hdiff
        obtain ⟨hkc, hphase⟩ := hothers k hdiff
        exact hne (h.exclusive (locksOf_holding (h.locks j d q hj) hholding)
          (locksOf_holding (h.locks i c phase hi) hphase) hk hkc)
      · cases q <;> trivial

theorem Sound.setPhase (h : s.Sound p) (hi : s.calls[i]? = some (c, phase))
    (hlocks : LocksOf p (s.table.party i) c phase') (hfresh : Fresh p s.entries c phase') :
    (s.setPhase i c phase').Sound p :=
  h.advance hi hlocks hfresh fun _ hne => absurd rfl hne

/-- A call that ends gives back its locks. -/
theorem Sound.leave (h : s.Sound p) (i : ℕ) (c : PublisherCall K V) : (s.leave i c).Sound p := by
  refine ⟨h.table.leave i, ?_, fun j d q hj => ?_, fun j d q hj => ?_⟩
  · show (s.calls.set i (c, .ended)).length = (s.table.leave i).parties.length
    rw [List.length_set, LockTable.leave_length]
    exact h.length
  · rcases setPhase_calls s i c .ended hj with ⟨rfl, rfl, rfl⟩ | ⟨hne, hj⟩
    · show (s.table.leave j).party j = .gone
      rw [LockTable.leave_party, if_pos rfl]
    · show LocksOf p ((s.table.leave i).party j) d q
      rw [LockTable.leave_party, if_neg hne]
      exact h.locks j d q hj
  · rcases setPhase_calls s i c .ended hj with ⟨rfl, rfl, rfl⟩ | ⟨-, hj⟩
    · trivial
    · exact h.fresh j d q hj

/-! ## Operations -/

/-- What operations do to a call: it keeps its place, and the cache changes only as it stores one of
its values or removes one of its keys. -/
inductive Operated (p : PlainPublisher K V) (entries : CacheEntries K V) (c : PublisherCall K V)
    (phase : PublicationPhase K V) (e : DispatchEvent) (phase' : PublicationPhase K V) :
    CacheEntries K V → Prop
  | quiet : Operated p entries c phase e phase' entries
  | stored (v : SnapshotValue K V) (d : Dispatch (SnapshotValue K V) Unit) :
      phase = .writing d → d.effecting e = some v → v.key ∈ c.keys → Admissible entries c v →
      Operated p entries c phase e phase' (entries.put v)
  | removed (k : K) (d : Dispatch K Unit) : phase = .invalidating d → d.effecting e = some k →
      k ∈ c.keys → Operated p entries c phase e phase' (entries.pop k)

theorem dispatchStep_spec {de : DispatchEvent} (h : Fresh p e c phase)
    (hs : dispatchStep p e de phase = some (phase', e')) :
    phase.holding = true ∧ phase'.holding = true ∧ Fresh p e' c phase' ∧
      Operated p e c phase de phase' e' := by
  cases phase with
  | locking => cases hs
  | preparing now previous => cases hs
  | ended => cases hs
  | reading now d =>
    obtain ⟨d', hd, heq⟩ := Option.map_eq_some_iff.mp hs
    rw [Prod.mk.injEq] at heq
    obtain ⟨rfl, rfl⟩ := heq
    refine ⟨rfl, rfl, ⟨(Dispatch.step_items hd).trans h.1, ?_⟩, .quiet⟩
    refine Dispatch.step_answered hd (fun k => ?_) h.2
    rw [PlainCache.get_eq _ fun _ _ => le_top, p.cache.serve_entries]
  | writing d =>
    obtain ⟨d', hd, heq⟩ := Option.map_eq_some_iff.mp hs
    rw [Prod.mk.injEq] at heq
    obtain ⟨rfl, rfl⟩ := heq
    obtain ⟨hnd, hkeys, hpending⟩ := h
    have hitems := Dispatch.step_items hd
    cases heff : d.effecting de with
    | none =>
      refine ⟨rfl, rfl, ⟨?_, ?_, Dispatch.step_pending hd hpending⟩, .quiet⟩
      · rw [hitems]
        exact hnd
      · rw [hitems]
        exact hkeys
    | some v =>
      obtain ⟨hadmissible, hv⟩ := Dispatch.step_effecting hd hpending heff
      refine ⟨rfl, rfl, ⟨?_, ?_, ?_⟩, .stored v d rfl heff (hkeys v hv) hadmissible⟩
      · rw [hitems]
        exact hnd
      · rw [hitems]
        exact hkeys
      · -- The values still to be written are for other keys.
        intro w jobPhase hw hwpending
        obtain ⟨hold, hne⟩ := Dispatch.step_effect_pending hd hpending hnd.of_map heff w jobPhase
          hw hwpending
        have hwmem : w ∈ d.items := hitems ▸ List.mem_map_of_mem hw
        have hkey : w.key ≠ v.key := fun hkey =>
          hne (List.inj_on_of_nodup_map hnd hwmem hv hkey)
        cases c with
        | publishMany updates force replaceEqual =>
          intro hforce x hx
          rw [Option.elim_some, CacheEntries.get?_put, if_neg hkey] at hx
          exact hold hforce x hx
        | invalidateMany keys => exact hold
  | invalidating d =>
    obtain ⟨d', hd, heq⟩ := Option.map_eq_some_iff.mp hs
    rw [Prod.mk.injEq] at heq
    obtain ⟨rfl, rfl⟩ := heq
    refine ⟨rfl, rfl, (Dispatch.step_items hd).trans h, ?_⟩
    cases heff : d.effecting de with
    | none => exact .quiet
    | some k =>
      have hall : d.Pending fun _ => True := fun _ _ _ _ => trivial
      exact .removed k d rfl heff (h ▸ (Dispatch.step_effecting hd hall heff).2)

/-- The candidates the publisher writes may be written. -/
theorem writes_spec {now : ℚ} {version : ℕ} {updates : List (ResourceUpdate K V)}
    {force replaceEqual : Bool} {previous : List (K × Option (SnapshotValue K V))}
    (h : Fresh p e (.publishMany updates force replaceEqual) (.preparing now previous)) :
    Fresh p e (.publishMany updates force replaceEqual) (.writing (.new p.maxPendingTasks
      (p.writes now version updates force replaceEqual previous))) := by
  have hcandidate : ∀ v ∈ p.writes now version updates force replaceEqual previous,
      ∃ w ∈ p.publisher.prepareCandidates now version
        (p.publisher.selectUpdates now updates).values, v = w.clone p.publisher.copier ∧
        (ignoredStatus (Dict.find previous w.key).join w force replaceEqual).isNone := by
    intro v hv
    obtain ⟨w, hw, rfl⟩ := List.mem_map.mp hv
    exact ⟨w, (List.mem_filter.mp hw).1, rfl, (List.mem_filter.mp hw).2⟩
  have hkey : ∀ v ∈ p.writes now version updates force replaceEqual previous,
      v.key ∈ (PublisherCall.publishMany updates force replaceEqual).keys := by
    intro v hv
    obtain ⟨w, hw, rfl, -⟩ := hcandidate v hv
    have hw' := p.publisher.candidates_keys hw
    exact Dict.mem_fromKeys.mpr hw'
  refine ⟨?_, ?_, ?_⟩
  · rw [Dispatch.new_items, PlainPublisher.writes, List.map_map]
    exact (p.publisher.candidates_nodup now version updates).sublist (List.filter_sublist.map _)
  · rw [Dispatch.new_items]
    exact hkey
  · refine Dispatch.new_pending fun v hv => ?_
    intro hforce w hw
    have hvkey := hkey v hv
    obtain ⟨u, -, rfl, hnone⟩ := hcandidate v hv
    rw [h u.key hvkey, ignoredStatus_clone, (ignoredStatus_eq _ _ _ _).2] at hnone
    have hget : e.get? u.key = some w := hw
    rw [hget, hforce] at hnone
    rw [stamp_clone]
    exact stamp_le_of_stored hnone

/-! ## Steps -/

theorem sound_call (h : s.Sound p) (c : PublisherCall K V) : ({ s with
    table := s.table.arrive (p.locks.indexes c.keys)
    calls := s.calls ++ [(c, .locking)] } : PublisherState K V).Sound p := by
  have hasc := p.locks.indexes_ascending c.keys
  obtain ⟨hothers, held, needed, hparty, hlocks⟩ := LockTable.arrive_advanced h.table hasc
  have hsplit : ∀ (j : ℕ) d q, (s.calls ++ [(c, PublicationPhase.locking)])[j]? = some (d, q) →
      s.calls[j]? = some (d, q) ∧ j ≠ s.table.parties.length ∨
        j = s.table.parties.length ∧ d = c ∧ q = .locking := by
    intro j d q hj
    rw [List.getElem?_append] at hj
    split at hj
    · rename_i hlt
      exact .inl ⟨hj, by rw [← h.length]; omega⟩
    · rename_i hge
      rw [List.getElem?_singleton] at hj
      split at hj
      · rename_i hzero
        rw [Option.some.injEq, Prod.mk.injEq] at hj
        exact .inr ⟨by rw [← h.length]; omega, hj.1.symm, hj.2.symm⟩
      · cases hj
  refine ⟨h.table.arrive hasc, ?_, fun j d q hj => ?_, fun j d q hj => ?_⟩
  · show (s.calls ++ [(c, PublicationPhase.locking)]).length = _
    rw [List.length_append, h.length, LockTable.arrive_length, List.length_singleton]
  · rcases hsplit j d q hj with ⟨hj, hne⟩ | ⟨rfl, rfl, rfl⟩
    · show LocksOf p ((s.table.arrive _).party j) d q
      rw [hothers j hne]
      exact h.locks j d q hj
    · exact ⟨held, needed, hparty, hlocks⟩
  · rcases hsplit j d q hj with ⟨hj, -⟩ | ⟨rfl, rfl, rfl⟩
    · exact h.fresh j d q hj
    · trivial

theorem sound_resume {table : LockTable} (h : s.Sound p) (hs : s.table.resume i = some table) :
    ({ s with table := table } : PublisherState K V).Sound p := by
  obtain ⟨hothers, held, needed, hparty, hall⟩ := LockTable.resume_advanced h.table hs rfl
  refine ⟨h.table.resume hs, ?_, fun j d q hj => ?_, h.fresh⟩
  · show s.calls.length = _
    rw [h.length, LockTable.resume_length hs]
  · have hlocks := h.locks j d q hj
    by_cases hji : j = i
    · subst hji
      -- Only a call that still needs a lock can be resumed.
      have hneeded : (s.table.party j).needed ≠ [] := by
        intro hnil
        unfold LockTable.resume at hs
        rw [hnil] at hs
        cases hs
      cases q with
      | locking =>
        obtain ⟨held₀, needed₀, hparty₀, hall₀⟩ := hlocks
        refine ⟨held, needed, hparty, ?_⟩
        rw [hall, hparty₀]
        exact hall₀
      | ended =>
        have hgone : s.table.party j = .gone := hlocks
        rw [hgone] at hneeded
        exact absurd rfl hneeded
      | _ =>
        rw [locksOf_holding hlocks rfl] at hneeded
        exact absurd rfl hneeded
    · show LocksOf p (table.party j) d q
      rw [hothers j hji]
      exact hlocks

/-- Every step keeps the invariant. -/
theorem sound_step {e : LockingEvent K V} (h : s.Sound p) (hs : step p s e = some t) :
    t.Sound p := by
  cases e with
  | call c =>
    simp only [step] at hs
    split at hs
    · cases hs
      exact h
    · cases hs
      exact sound_call h c
  | resume i =>
    obtain ⟨table, htable, rfl⟩ := Option.map_eq_some_iff.mp hs
    exact sound_resume h htable
  | begin i now =>
    simp only [step] at hs
    split at hs
    · rename_i c hi
      split at hs
      · rename_i hneeded
        have hparty : s.table.party i = .taking (p.locks.indexes c.keys) [] := by
          obtain ⟨held, needed, hparty, hall⟩ := h.locks i c _ hi
          rw [hparty, LockParty.needed_taking] at hneeded
          rw [hparty, ← hall, hneeded, List.append_nil]
        split at hs
        · split at hs
          · cases hs
            exact h.setPhase hi hparty ⟨Dispatch.new_items _ _, Dispatch.new_answered _ _ _⟩
          · cases hs
            exact h.leave i _
        · cases hs
          exact h.setPhase hi hparty (Dispatch.new_items _ _)
      · cases hs
    · cases hs
  | dispatch i de =>
    simp only [step] at hs
    split at hs
    · rename_i c phase hi
      obtain ⟨⟨phase', entries⟩, hd, rfl⟩ := Option.map_eq_some_iff.mp hs
      obtain ⟨hhold, hhold', hfresh, hoperated⟩ := dispatchStep_spec (h.fresh i c phase hi) hd
      have hparty := locksOf_holding (h.locks i c phase hi) hhold
      refine h.advance hi ?_ hfresh fun k hne => ?_
      · cases phase' <;> first | exact hparty | cases hhold'
      · cases hoperated with
        | quiet => exact absurd rfl hne
        | stored v d _ _ hv _ =>
          rw [CacheEntries.get?_put] at hne
          split at hne
          · rename_i hk
            exact ⟨hk ▸ hv, hhold⟩
          · exact absurd rfl hne
        | removed j d _ _ hj =>
          rw [CacheEntries.get?_pop] at hne
          split at hne
          · rename_i hk
            exact ⟨hk ▸ hj, hhold⟩
          · exact absurd rfl hne
    · cases hs
  | read i =>
    simp only [step] at hs
    split at hs
    · rename_i c now d hi
      obtain ⟨previous, hresults, rfl⟩ := Option.map_eq_some_iff.mp hs
      obtain ⟨hitems, hanswered⟩ := h.fresh i c _ hi
      obtain ⟨hkeys, hall⟩ := Dispatch.results_spec hresults hanswered
      have hparty := locksOf_holding (h.locks i c _ hi) rfl
      refine h.setPhase hi hparty fun k hk => ?_
      -- Every key of the call has been read, and nobody else has written it since.
      cases hfind : Dict.find (previous.map fun r =>
          (r.1, r.2.map (SnapshotValue.clone p.publisher.copier))) k with
      | none =>
        rw [Dict.find_eq_none, List.map_map] at hfind
        exact absurd (by rw [← hitems, ← hkeys] at hk; exact hk) hfind
      | some r =>
        obtain ⟨⟨j, x⟩, hx, heq⟩ := List.mem_map.mp (Dict.mem_of_find hfind)
        rw [Prod.mk.injEq] at heq
        obtain ⟨rfl, rfl⟩ := heq
        rw [Option.join_some]
        exact congrArg _ (hall _ hx)
    · cases hs
  | prepare i version =>
    simp only [step] at hs
    split at hs
    · rename_i updates force replaceEqual now previous hi
      cases hs
      have hparty := locksOf_holding (h.locks i _ _ hi) rfl
      exact h.setPhase hi hparty (writes_spec (h.fresh i _ _ hi))
    · cases hs
  | finish i =>
    simp only [step] at hs
    split at hs
    · obtain ⟨_, _, rfl⟩ := Option.map_eq_some_iff.mp hs
      exact h.leave i _
    · obtain ⟨_, _, rfl⟩ := Option.map_eq_some_iff.mp hs
      exact h.leave i _
    · cases hs
  | stop i =>
    simp only [step] at hs
    split at hs
    · split at hs
      · cases hs
        exact h.leave i _
      · cases hs
    · cases hs

theorem reachable {entries : CacheEntries K V} {es : List (LockingEvent K V)}
    (hrun : Run (step p) (new entries) es s) : s.Sound p :=
  hrun.invariant (Sound p) (fun _ _ _ _ h hs => sound_step h hs) (sound_new p entries)

/-! ## What the locks are for -/

/-- The event removes the key, or writes it with `force`. -/
def Disturbs (s : PublisherState K V) (k : K) : LockingEvent K V → Prop
  | .dispatch i e =>
    (∃ c d, s.calls[i]? = some (c, .invalidating d) ∧ d.effecting e = some k) ∨
    ∃ updates replaceEqual d v, s.calls[i]? = some (.publishMany updates true replaceEqual, .writing d) ∧
      d.effecting e = some v ∧ v.key = k
  | _ => False

/-- A stored stamp does not fall. -/
def Kept (k : K) (s t : PublisherState K V) : Prop :=
  ∀ v, s.entries.get? k = some v → ∃ w, t.entries.get? k = some w ∧ stamp v ≤ stamp w

/-- Only operations touch the cache. -/
theorem step_entries {event : LockingEvent K V} (hs : step p s event = some t) :
    t.entries = s.entries ∨ ∃ i e c phase phase', event = .dispatch i e ∧
      s.calls[i]? = some (c, phase) ∧
      dispatchStep p s.entries e phase = some (phase', t.entries) := by
  cases event with
  | call c =>
    simp only [step] at hs
    split at hs
    · cases hs
      exact .inl rfl
    · cases hs
      exact .inl rfl
  | resume i =>
    obtain ⟨table, -, rfl⟩ := Option.map_eq_some_iff.mp hs
    exact .inl rfl
  | begin i now =>
    simp only [step] at hs
    split at hs
    · split at hs
      · split at hs
        · split at hs
          · cases hs
            exact .inl rfl
          · cases hs
            exact .inl rfl
        · cases hs
          exact .inl rfl
      · cases hs
    · cases hs
  | dispatch i e =>
    simp only [step] at hs
    split at hs
    · rename_i c phase hi
      obtain ⟨⟨phase', entries⟩, hd, rfl⟩ := Option.map_eq_some_iff.mp hs
      exact .inr ⟨i, e, c, phase, phase', rfl, hi, hd⟩
    · cases hs
  | read i =>
    simp only [step] at hs
    split at hs
    · obtain ⟨_, _, rfl⟩ := Option.map_eq_some_iff.mp hs
      exact .inl rfl
    · cases hs
  | prepare i version =>
    simp only [step] at hs
    split at hs
    · cases hs
      exact .inl rfl
    · cases hs
  | finish i =>
    simp only [step] at hs
    split at hs
    · obtain ⟨_, _, rfl⟩ := Option.map_eq_some_iff.mp hs
      exact .inl rfl
    · obtain ⟨_, _, rfl⟩ := Option.map_eq_some_iff.mp hs
      exact .inl rfl
    · cases hs
  | stop i =>
    simp only [step] at hs
    split at hs
    · split at hs
      · cases hs
        exact .inl rfl
      · cases hs
    · cases hs

theorem kept_step {event : LockingEvent K V} {k : K} (h : s.Sound p)
    (hs : step p s event = some t) (hnot : ¬ s.Disturbs k event) : Kept k s t := by
  intro v hv
  rcases step_entries hs with hsame | ⟨i, e, c, phase, phase', rfl, hi, hd⟩
  · exact ⟨v, by rw [hsame, hv], le_rfl⟩
  · have hoperated := (dispatchStep_spec (h.fresh i c phase hi) hd).2.2.2
    generalize t.entries = entries at hoperated ⊢
    cases hoperated with
    | quiet => exact ⟨v, hv, le_rfl⟩
    | stored w d hphase heff hw hadmissible =>
      rw [CacheEntries.get?_put]
      by_cases hk : k = w.key
      · refine ⟨w, if_pos hk, ?_⟩
        cases c with
        | invalidateMany keys => exact hadmissible.elim
        | publishMany updates force replaceEqual =>
          cases force with
          | false => exact hadmissible rfl v (hk ▸ hv)
          | true =>
            exact absurd (.inr ⟨updates, replaceEqual, d, w, hphase ▸ hi, heff, hk.symm⟩) hnot
      · exact ⟨v, by rw [if_neg hk, hv], le_rfl⟩
    | removed j d hphase heff hj =>
      rw [CacheEntries.get?_pop]
      by_cases hk : k = j
      · exact absurd (.inl ⟨c, d, hphase ▸ hi, hk ▸ heff⟩) hnot
      · exact ⟨v, by rw [if_neg hk, hv], le_rfl⟩

/-- What the striped locks give in every state. -/
structure Locked (p : PlainPublisher K V) (s : PublisherState K V) : Prop where
  acyclic : Acyclic s.table.WaitsFor
  exclusive : ∀ i j c c' k, s.Critical i c → s.Critical j c' → k ∈ c.keys → k ∈ c'.keys → i = j
  released : ∀ (i : ℕ) c, s.calls[i]? = some (c, .ended) →
    (s.table.party i).held = [] ∧ ∀ l, i ∉ s.table.waiters l
  owned : ∀ l, s.table.locked l = true → ∃ i c phase, s.calls[i]? = some (c, phase) ∧
    phase ≠ .ended ∧ l ∈ (s.table.party i).held
  monotone : ∀ k es t, RunOf (step p) (fun s e => ¬ s.Disturbs k e) s es t → Kept k s t

theorem Sound.critical_party (h : s.Sound p) (hi : s.Critical i c) :
    s.table.party i = .taking (p.locks.indexes c.keys) [] := by
  obtain ⟨phase, hcalls, hphase⟩ := hi
  have hlocks := h.locks i c phase hcalls
  cases phase with
  | locking =>
    obtain ⟨held, needed, hparty, hall⟩ := hlocks
    have hneeded : needed = [] := by
      have hnone : (s.table.party i).needed = [] := hphase
      rwa [hparty] at hnone
    rw [hparty, ← hall, hneeded, List.append_nil]
  | ended => exact hphase.elim
  | _ => exact hlocks

/-- In every run of concurrent calls, whatever the stripes and the hash. -/
theorem publisher_locking {entries : CacheEntries K V} {es : List (LockingEvent K V)}
    (hrun : Run (step p) (new entries) es s) : s.Locked p := by
  have h := reachable hrun
  refine ⟨h.table.acyclic, ?_, ?_, ?_, ?_⟩
  · intro i j c c' k hi hj hk hk'
    exact h.exclusive (h.critical_party hi) (h.critical_party hj) hk hk'
  · intro i c hi
    have hgone : s.table.party i = .gone := h.locks i c _ hi
    exact ⟨by rw [hgone]; rfl, h.table.not_queued (by rw [hgone]; rfl)⟩
  · intro l hl
    obtain ⟨i, hi⟩ := h.table.owned l hl
    have hlt : i < s.calls.length := by
      rw [h.length]
      by_contra hge
      rw [LockTable.party_new (by omega)] at hi
      exact List.not_mem_nil hi
    obtain ⟨⟨c, phase⟩, hcall⟩ : ∃ call, s.calls[i]? = some call :=
      ⟨_, List.getElem?_eq_getElem hlt⟩
    refine ⟨i, c, phase, hcall, ?_, hi⟩
    rintro rfl
    have hgone : s.table.party i = .gone := h.locks i c _ hcall
    rw [hgone] at hi
    exact List.not_mem_nil hi
  · intro k fs t hfs
    have hboth : t.Sound p ∧ Kept k s t := by
      refine hfs.invariant (fun u => u.Sound p ∧ Kept k s u) ?_ ⟨h, fun v hv => ⟨v, hv, le_rfl⟩⟩
      intro u event u' hnot hu hstep
      refine ⟨sound_step hu.1 hstep, fun v hv => ?_⟩
      obtain ⟨w, hw, hvw⟩ := hu.2 v hv
      obtain ⟨x, hx, hwx⟩ := kept_step hu.1 hstep hnot w hw
      exact ⟨x, hx, hvw.trans hwx⟩
    exact hboth.2

end PublisherState
end

/-! ## Two publications of one key -/

/-- Four stripes under the identity. -/
def stripedPublisher : PlainPublisher ℕ ℕ :=
  ⟨rankedPublisher, .ofEntries, ⟨fun k => k, 4, by decide⟩, 8, by decide⟩

/-- The second call comes while the first one reads, and gets the lock when it has written. -/
def queuedPublications : List (LockingEvent ℕ ℕ) :=
  [.call (.publishMany [⟨0, 7, "local", some 5, local_named⟩] false false), .begin 0 10,
    .dispatch 0 .start, .call (.publishMany [⟨0, 8, "local", some 4, local_named⟩] false false),
    .dispatch 0 (.effect 0), .dispatch 0 (.ends 0), .read 0, .prepare 0 1, .dispatch 0 .start,
    .dispatch 0 (.effect 0), .dispatch 0 (.ends 0), .finish 0, .resume 1]

theorem publisher_locking_queued : ∃ s : PublisherState ℕ ℕ,
    Run (PublisherState.step stripedPublisher) (.new .empty) queuedPublications s ∧
      s.table.party 0 = .gone ∧ s.table.party 1 = .taking [0] [] ∧ s.Locked stripedPublisher := by
  have hend : (exec (PublisherState.step stripedPublisher) (.new .empty) queuedPublications).map
      (fun s => (s.table.party 0, s.table.party 1)) = some (.gone, .taking [0] []) := by
    decide +kernel
  obtain ⟨s, hs, hparties⟩ := Option.map_eq_some_iff.mp hend
  rw [Prod.mk.injEq] at hparties
  exact ⟨s, exec_run hs, hparties.1, hparties.2, PublisherState.publisher_locking (exec_run hs)⟩

end Coalestra
