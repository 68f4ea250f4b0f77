import Coalestra.Orchestration.Discipline

/-! # Where values come from

`Body.Carries` says that a frame holds a value of a key in some slot. A move copies values from slot
to slot under their version, and `Inflow` lists the points at which a frame takes in a value it did
not hold: the memo, the cache, a finished child, a joined flight and the answer of a source. With
`Move.carries` an invariant about the versions of one key is a fact about these points only. -/

namespace Coalestra
set_option autoImplicit false
set_option maxHeartbeats 250000

section
variable {K V : Type} [DecidableEq K]

/-! ## Slots -/

def ManyLocals.Carries (l : ManyLocals K V) (key : K) (v : SnapshotValue K V) : Prop :=
  l.values.get? key = some v ∨ l.staleCandidates.get? key = some v ∨
    l.results.get? key = some (.ok v)

def LookupsCarry (lookups : List (K × CacheLookup K V)) (key : K) (v : SnapshotValue K V) : Prop :=
  ∃ x, (key, x) ∈ lookups ∧ x.value = some v

def ManyPhase.Carries (key : K) (v : SnapshotValue K V) : ManyPhase K V → Prop
  | .isolating lookups | .serving lookups => LookupsCarry lookups key v
  | .copying key' copy rest => (key' = key ∧ copy = v) ∨ LookupsCarry rest key v
  | .fallback key' copy _ => key' = key ∧ copy = v
  | _ => False

/-- A stale value is found under its key, or is written back for its key. -/
def OwnedLocals.Carries (l : OwnedLocals K V) (key : K) (v : SnapshotValue K V) : Prop :=
  (∃ k, l.bestStale.get? k = some v ∧ (k = key ∨ v.key = key)) ∨ l.resolved.get? key = some (.ok v)

def OwnedPhase.Carries (key : K) (v : SnapshotValue K V) : OwnedPhase K V → Prop
  | .harvesting _ _ _ _ values | .writing _ values | .finishing _ values | .staleWriting values =>
    v ∈ values ∧ v.key = key
  | .written _ winners | .superseding _ winners => (key, v) ∈ winners
  | .copyingWinner _ key' copy rest => (key' = key ∧ copy = v) ∨ (key, v) ∈ rest
  | _ => False

def WorkPhase.Carries (key : K) (v : SnapshotValue K V) : WorkPhase K V → Prop
  | .isolating values => values.get? key = some v
  | _ => False

def ProducePhase.Carries (key : K) (v : SnapshotValue K V) : ProducePhase K V → Prop
  | .completing _ (.ok resolved) => resolved.get? key = some (.ok v)
  | _ => False

/-- Some slot of the frame holds this value of `key`. -/
def Body.Carries (key : K) (v : SnapshotValue K V) : Body K V → Prop
  | .resolveMany _ l p => l.Carries key v ∨ p.Carries key v
  | .resolveOwned _ l p => l.Carries key v ∨ p.Carries key v
  | .work _ _ p => p.Carries key v
  | .produce _ settled p => settled.get? key = some (.ok (.ok v)) ∨ p.Carries key v
  | .refresh _ _ => False

/-- The points at which a frame takes in a value of `key`. -/
inductive Inflow (b : Builder K V) (s : State K V) (c : Scope K) (key : K) :
    Body K V → SnapshotValue K V → Prop
  | pinned {keys : List K} {l : ManyLocals K V} {v : SnapshotValue K V}
      (h : (s.runtime c.runtime).pinned key = some v) :
      Inflow b s c key (.resolveMany keys l .start) v
  | visited {keys : List K} {l : OwnedLocals K V} {sources : List (Source K)}
      {v : SnapshotValue K V} (h : (s.runtime c.runtime).pinned key = some v) :
      Inflow b s c key (.resolveOwned keys l (.visiting sources)) v
  | read {keys cacheKeys : List K} {l : ManyLocals K V} {now : ℚ} {v : SnapshotValue K V}
      (hk : key ∈ cacheKeys) (h : s.cache.get? key = some v) :
      Inflow b s c key (.resolveMany keys l (.reading cacheKeys now)) v
  | superseded {keys : List K} {l : OwnedLocals K V} {sources : List (Source K)}
      {fresh : List (SnapshotValue K V)} {v : SnapshotValue K V}
      (hx : ∃ x ∈ fresh, x.key = key ∧ x.authorityRank < v.authorityRank)
      (h : s.cache.get? key = some v) :
      Inflow b s c key (.resolveOwned keys l (.writing sources fresh)) v
  | delegated {keys shared : List K} {l : ManyLocals K V} {child : ℕ} {g : Frame K V}
      {v : SnapshotValue K V} (hg : s.frame? child = some g) (h : g.body.Carries key v) :
      Inflow b s c key (.resolveMany keys l (.resolving child shared)) v
  | joined {keys : List K} {l : ManyLocals K V} {futures : List (K × ℕ)} {q : ℕ} {g : Frame K V}
      {v : SnapshotValue K V} (hq : (key, q) ∈ futures) (hg : s.frame? q = some g)
      (h : g.body.Carries key v) : Inflow b s c key (.resolveMany keys l (.joining futures)) v
  | derived {source : Source K} {keys : List K} {child : ℕ} {g : Frame K V}
      {v : SnapshotValue K V} (hg : s.frame? child = some g) (h : g.body.Carries key v) :
      Inflow b s c key (.work source keys (.resolving child)) v
  | produced {owned : List K} {settled : Dict K (Except (Error K) (ResolutionResult K V))}
      {child : ℕ} {g : Frame K V} {v : SnapshotValue K V} (hg : s.frame? child = some g)
      (h : g.body.Carries key v) : Inflow b s c key (.produce owned settled (.running child)) v
  | harvested {keys rest : List K} {l : OwnedLocals K V} {source : Source K}
      {sources : List (Source K)} {attempts : List (K × SourceAttempt K V)}
      {fresh : List (SnapshotValue K V)} {a : SourceAttempt K V} {v : SnapshotValue K V}
      {versions : Dict K ℕ} (ha : Dict.find attempts key = some a)
      (hh : b.harvest s.now s.revisions.length source key a = .fresh v versions ∨
        b.harvest s.now s.revisions.length source key a = .stale v versions) :
      Inflow b s c key
        (.resolveOwned keys l (.harvesting source sources attempts (key :: rest) fresh)) v

/-- The frame holds a value under this version, or takes one in now. -/
def Supplied (b : Builder K V) (s : State K V) (c : Scope K) (body : Body K V) (key : K)
    (version : ℕ) : Prop :=
  ∃ v, v.version = version ∧ (body.Carries key v ∨ Inflow b s c key body v)

/-! ## Moves -/

variable {b : Builder K V} {s : State K V} {c : Scope K} {e : Event K V} {m : Step K V} {key : K}
  {v : SnapshotValue K V}

theorem Supplied.carried (body : Body K V) (h : body.Carries key v) :
    Supplied b s c body key v.version := ⟨v, rfl, .inl h⟩

theorem Supplied.inflow {body : Body K V} (h : Inflow b s c key body v) :
    Supplied b s c body key v.version := ⟨v, rfl, .inr h⟩

omit [DecidableEq K] in
theorem LookupsCarry.tail {x : K × CacheLookup K V} {rest : List (K × CacheLookup K V)}
    (h : LookupsCarry rest key v) : LookupsCarry (x :: rest) key v := by
  obtain ⟨y, hy, hv⟩ := h
  exact ⟨y, List.mem_cons_of_mem _ hy, hv⟩

/-- A copy under the same version stands in a slot that is read and one that is filled. -/
theorem ManyMove.carries {keys : List K} {l : ManyLocals K V} {p : ManyPhase K V}
    (hm : ManyMove b s c keys l p e m) (h : m.body.Carries key v) :
    Supplied b s c (.resolveMany keys l p) key v.version := by
  have hlocals : l.Carries key v → Supplied b s c (.resolveMany keys l p) key v.version :=
    fun h => .carried (.resolveMany keys l p) (.inl h)
  have hphase : p.Carries key v → Supplied b s c (.resolveMany keys l p) key v.version :=
    fun h => .carried (.resolveMany keys l p) (.inr h)
  cases hm with
  | start =>
    rcases h with (h | h | h) | h
    · rw [Dict.get?_comprehend] at h
      split at h
      · exact .inflow (.pinned h)
      · cases h
    · exact hlocals (.inr (.inl h))
    · exact hlocals (.inr (.inr h))
    · change ManyPhase.Carries key v (if _ then _ else _) at h
      split at h
      · obtain ⟨x, hx, _⟩ := h
        cases hx
      · cases h
  | read =>
    rcases h with h | ⟨x, hx, hv⟩
    · exact hlocals h
    · have hk := List.mem_map_of_mem (f := Prod.fst) hx
      rw [AsyncMemoryCache.getMany, AsyncMemoryCache.getManyLocked_keys, Dict.mem_fromKeys] at hk
      rcases AsyncMemoryCache.getManyLocked_lookup _ _ _ _ hx with ⟨hnone, _⟩ | ⟨w, hw, rfl, _⟩
      · rw [hnone] at hv
        cases hv
      · cases hv
        exact .inflow (.read hk hw)
  | isolate =>
    rcases h with h | ⟨x, hx, hv⟩
    · exact hlocals h
    · obtain ⟨⟨k, y⟩, hy, he⟩ := List.mem_map.mp hx
      rw [Prod.mk.injEq] at he
      obtain ⟨rfl, rfl⟩ := he
      obtain ⟨w, hw, rfl⟩ := Option.map_eq_some_iff.mp hv
      exact ⟨w, rfl, .inl (.inr ⟨y, hy, hw⟩)⟩
  | served => exact h.elim hlocals fun h => h.elim
  | share => exact h.elim hlocals fun h => h.elim
  | delegate => exact h.elim hlocals fun h => h.elim
  | @hit _ _ _ value _ _ hv =>
    rcases h with h | ⟨rfl, rfl⟩ | h
    · exact hlocals h
    · exact ⟨value, rfl, .inl (.inr ⟨_, List.mem_cons_self, hv⟩)⟩
    · exact hphase h.tail
  | miss => exact h.elim hlocals fun h => hphase (LookupsCarry.tail h)
  | missStale hv =>
    rcases h with (h | h | h) | h
    · exact hlocals (.inl h)
    · rcases Dict.get?_set_cases h with ⟨rfl, rfl⟩ | h
      · exact hphase ⟨_, List.mem_cons_self, hv⟩
      · exact hlocals (.inr (.inl h))
    · exact hlocals (.inr (.inr h))
    · exact hphase (LookupsCarry.tail h)
  | install =>
    rcases h with (h | h | h) | h
    · rcases Dict.get?_set_cases h with ⟨rfl, rfl⟩ | h
      · exact hphase (.inl ⟨rfl, rfl⟩)
      · exact hlocals (.inl h)
    · exact hlocals (.inr (.inl h))
    · exact hlocals (.inr (.inr h))
    · exact hphase (.inr h)
  | @delegated child shared resolved ho =>
    rcases h with (h | h | h) | h
    · exact hlocals (.inl h)
    · exact hlocals (.inr (.inl h))
    · rcases Dict.get?_update_cases h with h | h
      · obtain ⟨c', keys', l', hg, rfl⟩ := ownedOutcome_ok ho
        exact .inflow (.delegated hg (.inl (.inr h)))
      · exact hlocals (.inr (.inr h))
    · change ManyPhase.Carries key v (if _ then _ else _) at h
      split at h <;> cases h
  | delegateRaised => exact h.elim hlocals fun h => h.elim
  | reserve => exact h.elim hlocals fun h => h.elim
  | @joined futures joined hj =>
    rcases h with (h | h | h) | h
    · exact hlocals (.inl h)
    · exact hlocals (.inr (.inl h))
    · rcases Dict.get?_update_cases h with h | h
      · obtain ⟨q, hq, hfuture⟩ := joined_get? hj h
        obtain ⟨c', owned, settled, p, hg, hset⟩ := future_some hfuture
        exact .inflow (.joined hq hg (.inl hset))
      · exact hlocals (.inr (.inr h))
    · cases h
  | joinRaised => exact h.elim hlocals fun h => h.elim
  | collected => exact h.elim hlocals fun h => h.elim
  | collectMissing => exact h.elim hlocals fun h => h.elim
  | collectValue hr =>
    rcases h with (h | h | h) | h
    · rcases Dict.get?_set_cases h with ⟨rfl, rfl⟩ | h
      · exact hlocals (.inr (.inr hr))
      · exact hlocals (.inl h)
    · exact hlocals (.inr (.inl h))
    · exact hlocals (.inr (.inr h))
    · cases h
  | collectError => exact h.elim hlocals fun h => h.elim
  | @collectStale _ _ _ value _ hc =>
    rcases h with h | ⟨rfl, rfl⟩
    · exact hlocals h
    · exact ⟨value, rfl, .inl (.inl (.inr (.inl hc)))⟩
  | fallBack =>
    rcases h with (h | h | h) | h
    · rcases Dict.get?_set_cases h with ⟨rfl, rfl⟩ | h
      · exact hphase ⟨rfl, rfl⟩
      · exact hlocals (.inl h)
    · exact hlocals (.inr (.inl h))
    · exact hlocals (.inr (.inr h))
    · cases h
  | interrupt => exact h.elim hlocals fun h => h.elim

/-- A stale payload is kept under its key. -/
theorem carries_keepStale {l : OwnedLocals K V} {k : K} {w : SnapshotValue K V}
    (h : (b.keepStale l k w).Carries key v) (hw : w.key = k) :
    l.Carries key v ∨ (k = key ∧ w = v) := by
  unfold Builder.keepStale at h
  split at h
  · rcases h with ⟨j, hj, hkey⟩ | h
    · rcases Dict.get?_set_cases hj with ⟨rfl, rfl⟩ | hj
      · exact .inr ⟨hkey.elim id fun hkey => hw.symm.trans hkey, rfl⟩
      · exact .inl (.inl ⟨j, hj, hkey⟩)
    · exact .inl (.inr h)
  · exact .inl h

theorem carries_consider {source : Source K} : ∀ (ks : List K) {l : OwnedLocals K V},
    (Builder.consider source l ks).Carries key v → l.Carries key v
  | [], _, h => h
  | k :: ks, l, h => by
      unfold Builder.consider at h
      rw [List.foldl_cons] at h
      have hl := carries_consider ks h
      split at hl
      · exact hl
      · exact hl

/-- A visit takes in what the memo pins. -/
theorem carries_visit {l : OwnedLocals K V} {r : ResolutionRuntime K V}
    (h : (Builder.visit r l).Carries key v) : l.Carries key v ∨ r.pinned key = some v := by
  rcases h with h | h
  · exact .inl (.inl h)
  · rcases Dict.get?_update_cases h with h | h
    · rw [Dict.get?_comprehend] at h
      split at h
      · obtain ⟨w, hw, he⟩ := Option.map_eq_some_iff.mp h
        cases he
        exact .inr hw
      · cases h
    · exact .inl (.inr h)

theorem OwnedMove.carries {keys : List K} {l : OwnedLocals K V} {p : OwnedPhase K V}
    (hm : OwnedMove b s c keys l p e m) (h : m.body.Carries key v) :
    Supplied b s c (.resolveOwned keys l p) key v.version := by
  have hlocals : l.Carries key v → Supplied b s c (.resolveOwned keys l p) key v.version :=
    fun h => .carried (.resolveOwned keys l p) (.inl h)
  have hphase : p.Carries key v → Supplied b s c (.resolveOwned keys l p) key v.version :=
    fun h => .carried (.resolveOwned keys l p) (.inr h)
  have hkey : ∀ {version : ℕ} {source : Source K} {k : K} {a : SourceAttempt K V}
      {w : SnapshotValue K V} {versions : Dict K ℕ},
      (b.harvest s.now version source k a = .fresh w versions ∨
        b.harvest s.now version source k a = .stale w versions) → w.key = k := by
    intro version source k a w versions hh
    obtain ⟨payload, _, rfl⟩ := harvest_value hh
    rfl
  cases hm with
  | exhausted => exact h.elim hlocals fun h => absurd h.1 List.not_mem_nil
  | settled =>
    rcases h with h | h
    · exact (carries_visit h).elim hlocals fun h => .inflow (.visited h)
    · exact absurd h.1 List.not_mem_nil
  | skip hl =>
    subst hl
    rcases h with h | h
    · exact (carries_visit (carries_consider _ h)).elim hlocals fun h => .inflow (.visited h)
    · exact h.elim
  | attempt hl =>
    subst hl
    rcases h with h | h
    · exact (carries_visit (carries_consider _ h)).elim hlocals fun h => .inflow (.visited h)
    · exact h.elim
  | dispatch => exact h.elim hlocals fun h => h.elim
  | gather => exact h.elim hlocals fun h => absurd h.1 List.not_mem_nil
  | harvestMissing => exact h.elim hlocals fun h => h.elim
  | refuse => exact h.elim hlocals hphase
  | keep ha hh =>
    rcases h with h | h
    · rcases carries_keepStale h (hkey (.inr hh)) with h | ⟨rfl, rfl⟩
      · exact hlocals h
      · exact .inflow (.harvested ha (.inr hh))
    · exact hphase h
  | accept ha hh =>
    rcases h with (h | h) | ⟨h, hv⟩
    · exact hlocals (.inl h)
    · rcases Dict.get?_set_cases h with ⟨rfl, he⟩ | h
      · cases he
        exact .inflow (.harvested ha (.inl hh))
      · exact hlocals (.inr h)
    · rcases List.mem_append.mp h with h | h
      · exact hphase ⟨h, hv⟩
      · rw [List.mem_singleton] at h
        subst h
        rw [hkey (.inl hh)] at hv
        subst hv
        exact .inflow (.harvested ha (.inl hh))
  | publish => exact h.elim hlocals hphase
  | harvested => exact h.elim hlocals fun h => h.elim
  | write =>
    rcases h with h | h
    · exact hlocals h
    · obtain ⟨w, _, hk, r, hr, hstatus, rfl⟩ := mem_superseded h
      obtain ⟨hcached, hrank⟩ := setMany_ignored b s.cache _ hr (by simp [hstatus])
      dsimp only at hk
      rw [← hk] at hcached hrank
      exact ⟨r.value, rfl, .inr (.superseded (hrank hstatus) hcached)⟩
  | wrote => exact h.elim hlocals hphase
  | superseded => exact h.elim hlocals fun h => h.elim
  | @supersede _ k winner rest =>
    rcases h with h | ⟨rfl, rfl⟩ | h
    · exact hlocals h
    · exact ⟨winner, rfl, .inl (.inr List.mem_cons_self)⟩
    · exact hphase (List.mem_cons_of_mem _ h)
  | installWinner =>
    rcases h with (h | h) | h
    · exact hlocals (.inl h)
    · rcases Dict.get?_set_cases h with ⟨rfl, he⟩ | h
      · cases he
        exact hphase (.inl ⟨rfl, rfl⟩)
      · exact hlocals (.inr h)
    · exact hphase (.inr h)
  | finishStale hb =>
    rcases h with (h | h) | ⟨h, hv⟩
    · exact hlocals (.inl h)
    · rcases Dict.get?_set_cases h with ⟨rfl, he⟩ | h
      · cases he
        exact hlocals (.inl ⟨_, hb, .inl rfl⟩)
      · exact hlocals (.inr h)
    · rcases List.mem_append.mp h with h | h
      · exact hphase ⟨h, hv⟩
      · rw [List.mem_singleton] at h
        subst h
        exact hlocals (.inl ⟨_, hb, .inr hv⟩)
  | finishError =>
    rcases h with (h | h) | h
    · exact hlocals (.inl h)
    · rcases Dict.get?_set_cases h with ⟨_, he⟩ | h
      · cases he
      · exact hlocals (.inr h)
    · exact hphase h
  | publishStale => exact h.elim hlocals hphase
  | finished => exact h.elim hlocals fun h => h.elim
  | writeStale => exact h.elim hlocals fun h => h.elim
  | wroteStale => exact h.elim hlocals fun h => h.elim
  | interrupt => exact h.elim hlocals fun h => h.elim

theorem WorkMove.carries {source : Source K} {keys : List K} {p : WorkPhase K V}
    (hm : WorkMove b s c source keys p e m) (h : m.body.Carries key v) :
    Supplied b s c (.work source keys p) key v.version := by
  cases hm with
  | resolved ho =>
    obtain ⟨c', keys', l', hg, rfl, rfl⟩ := manyOutcome_ok ho
    exact .inflow (.derived hg (.inl (.inl h)))
  | _ => exact h.elim

theorem ProduceMove.carries {owned : List K}
    {settled : Dict K (Except (Error K) (ResolutionResult K V))} {p : ProducePhase K V}
    (hm : ProduceMove b s c owned settled p e m) (h : m.body.Carries key v) :
    Supplied b s c (.produce owned settled p) key v.version := by
  have hsettled : settled.get? key = some (.ok (.ok v)) →
      Supplied b s c (.produce owned settled p) key v.version :=
    fun h => .carried (.produce owned settled p) (.inl h)
  cases hm with
  | start => exact h.elim hsettled fun h => h.elim
  | @produced child outcome ho =>
    rcases h with h | h
    · exact hsettled h
    · change ProducePhase.Carries key v (.completing owned (produceOutcome owned outcome)) at h
      cases outcome with
      | error err => exact h.elim
      | ok resolved =>
        obtain ⟨c', keys', l', hg, rfl⟩ := ownedOutcome_ok ho
        unfold produceOutcome at h
        dsimp only at h
        split at h
        · exact .inflow (.produced hg (.inl (.inr h)))
        · exact h.elim
  | @complete k rest outcome =>
    rcases h with h | h
    · rcases Dict.get?_set_cases h with ⟨rfl, he⟩ | h
      · cases outcome with
        | error err => cases he
        | ok resolved =>
          unfold completion at he
          dsimp only at he
          cases hr : resolved.get? k with
          | none =>
            rw [hr] at he
            cases he
          | some r =>
            rw [hr] at he
            cases he
            exact .carried (.produce owned settled (.completing (k :: rest) (.ok resolved)))
              (.inr hr)
      · exact hsettled h
    · cases outcome with
      | error err => exact h.elim
      | ok resolved =>
        exact .carried (.produce owned settled (.completing (k :: rest) (.ok resolved)))
          (.inr h)
  | completed => exact h.elim hsettled fun h => h.elim

/-- What a frame holds after a move it held before, under the same version, or takes in now. -/
theorem Move.carries {body : Body K V} (hm : Move b s c body e m) (h : m.body.Carries key v) :
    Supplied b s c body key v.version := by
  cases hm with
  | many hm => exact hm.carries h
  | owned hm => exact hm.carries h
  | work hm => exact hm.carries h
  | produce hm => exact hm.carries h
  | refresh hm => cases hm <;> exact h.elim

/-! ## Starts -/

/-- The point at which a coroutine starts, with its locals. -/
def Body.AtStart (b : Builder K V) : Body K V → Prop
  | .resolveMany _ l p => l = .new ∧ p = .start
  | .resolveOwned keys l p => l = .new keys ∧ p = .visiting b.sources
  | .work _ _ p => p = .start ∨ p = .calling .empty
  | .produce _ settled p => settled = .empty ∧ p = .start
  | .refresh _ p => p = .reserving

theorem Move.spawn_atStart {body : Body K V} (hm : Move b s c body e m) {g : Frame K V}
    (hg : m.spawn = some g) : g.body.AtStart b := by
  have hreserve : ∀ ks, (s.reserve c ks).2.2 = some g → g.body.AtStart b := by
    intro ks hr
    obtain ⟨owned, _, _, rfl⟩ := reserve_spawn_eq hr
    exact ⟨rfl, rfl⟩
  cases hm with
  | many hm =>
    cases hm with
    | delegate => cases hg; exact ⟨rfl, rfl⟩
    | hit =>
      rw [schedule_spawn hg]
      rfl
    | reserve => exact hreserve _ hg
    | _ => cases hg
  | owned hm =>
    cases hm with
    | dispatch =>
      cases hg
      show (if _ then _ else _ : WorkPhase K V) = _ ∨ (if _ then _ else _ : WorkPhase K V) = _
      split
      · exact .inl rfl
      · exact .inr rfl
    | _ => cases hg
  | work hm =>
    cases hm with
    | depend => cases hg; exact ⟨rfl, rfl⟩
    | _ => cases hg
  | produce hm =>
    cases hm with
    | start => cases hg; exact ⟨rfl, rfl⟩
    | _ => cases hg
  | refresh hm =>
    cases hm with
    | reserve => exact hreserve _ hg
    | _ => cases hg

/-- A coroutine that starts holds nothing. -/
theorem Body.AtStart.not_carries {body : Body K V} (h : body.AtStart b) : ¬ body.Carries key v := by
  have hnone : ∀ {T : Type} {k : K} {x : T}, (Dict.empty : Dict K T).get? k ≠ some x := nofun
  intro hv
  cases body with
  | resolveMany keys l p =>
    obtain ⟨rfl, rfl⟩ := h
    rcases hv with (hv | hv | hv) | hv
    · exact hnone hv
    · exact hnone hv
    · exact hnone hv
    · exact hv
  | resolveOwned keys l p =>
    obtain ⟨rfl, rfl⟩ := h
    rcases hv with (⟨_, hv, _⟩ | hv) | hv
    · exact hnone hv
    · exact hnone hv
    · exact hv
  | work source keys p => rcases h with rfl | rfl <;> exact hv
  | produce owned settled p =>
    obtain ⟨rfl, rfl⟩ := h
    exact hv.elim hnone id
  | refresh key p => exact hv

/-! ## Stores -/

/-- What a frame stores in the memo it holds, or takes in now. -/
theorem Installs.supplied {body : Body K V} (h : Installs b s body key v) :
    Supplied b s c body key v.version := by
  cases h with
  | copied h =>
    unfold Body.installing at h
    split at h
    · cases h
      exact .carried _ (.inr (.inl ⟨rfl, rfl⟩))
    · cases h
      exact .carried _ (.inr ⟨rfl, rfl⟩)
    · cases h
      exact .carried _ (.inr (.inl ⟨rfl, rfl⟩))
    · cases h
  | collected h => exact .carried _ (.inl (.inr (.inr h)))
  | accepted ha hh => exact .inflow (.harvested ha (.inl hh))
  | kept h => exact .carried _ (.inl (.inl ⟨_, h, .inl rfl⟩))

/-- What a frame writes into the cache it holds under the key of the value. -/
theorem carries_of_writing {body : Body K V} (h : v ∈ body.writing)
    (hk : v.key = key) : body.Carries key v := by
  unfold Body.writing at h
  split at h
  · exact .inr ⟨h, hk⟩
  · exact .inr ⟨h, hk⟩
  · cases h

end
end Coalestra
