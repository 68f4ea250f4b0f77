import Mathlib.Data.List.Perm.Basic
import Coalestra.Orchestration.Deadlock
import Coalestra.Orchestration.Discipline

/-! # No key is lost

A requested key travels through the memo, the cache, an owned source loop or a flight and the
fallbacks. At every point of `_resolve_many` the keys already decided and the keys still undecided
are together the requested keys, each once (`ManyWhole`), and at every point of
`_resolve_owned_keys` an owned key has its result or is still on its way to one (`OwnedWhole`). No
lookup on the way misses (`Body.misses`), and values stay under their keys (`ownKeys`). -/

namespace Coalestra
set_option autoImplicit false
set_option maxHeartbeats 250000

section
variable {K V : Type} [DecidableEq K]

/-! ## Decided and undecided keys -/

/-- The requested keys that `_resolve_many` has not decided yet. -/
def ManyPhase.undecided (keys : List K) (l : ManyLocals K V) : ManyPhase K V → List K
  | .start => keys
  | .reading cacheKeys _ => l.pending ++ cacheKeys
  | .isolating lookups | .serving lookups => l.pending ++ lookups.map Prod.fst
  | .copying key _ rest => l.pending ++ key :: rest.map Prod.fst
  | .resolving _ _ | .reserving _ | .joining _ => l.pending
  | .collecting rest => rest
  | .fallback key _ rest => key :: rest
  | .done | .raised _ => []

/-- Decided and undecided keys are the requested keys, each once. -/
def ManyWhole (keys : List K) (l : ManyLocals K V) (p : ManyPhase K V) : Prop :=
  (∀ e, p ≠ .raised e) → (l.values.keys ++ l.errors.keys ++ p.undecided keys l).Perm keys

/-- Where the result of every pending key is or will come from. -/
def ManyFed (called : ℕ → Scope K → Call K → Prop) (l : ManyLocals K V) : ManyPhase K V → Prop
  | .resolving child shared => shared.Nodup ∧ ∀ k ∈ l.pending, k ∈ shared ∨
      ∃ c owned, called child c (.owned owned) ∧ k ∈ owned
  | .reserving shared => shared.Nodup ∧ ∀ k ∈ l.pending, k ∈ l.results.keys ∨ k ∈ shared
  | .joining futures => ∀ k ∈ l.pending, k ∈ l.results.keys ∨ k ∈ futures.map Prod.fst
  | .collecting rest | .fallback _ _ rest => ∀ k ∈ rest, k ∈ l.results.keys
  | _ => True

/-- The owned keys that have no result yet. -/
def OwnedPhase.unsettled (l : OwnedLocals K V) : OwnedPhase K V → List K
  | .finishing rest _ => rest
  | .staleWriting _ | .staleWritten | .done | .raised _ => []
  | _ => l.unresolved

/-- The keys that one turn of the source loop carries to a result. -/
def OwnedPhase.underway : OwnedPhase K V → List K
  | .attempting _ _ chosen _ _ => chosen
  | .harvesting _ _ _ rest fresh => rest ++ fresh.map SnapshotValue.key
  | .writing _ fresh => fresh.map SnapshotValue.key
  | .written _ winners | .superseding _ winners => winners.map Prod.fst
  | .copyingWinner _ key _ rest => key :: rest.map Prod.fst
  | .finishing rest _ => rest
  | _ => []

/-- Every owned key has its result or waits for it, and no other key has one. -/
structure OwnedWhole (keys : List K) (l : OwnedLocals K V) (p : OwnedPhase K V) : Prop where
  settled : (∀ e, p ≠ .raised e) → ∀ k ∈ keys, k ∈ l.resolved.keys ∨ k ∈ p.unsettled l
  owned : ∀ k, k ∈ l.resolved.keys ∨ k ∈ l.unresolved ∨ k ∈ p.underway → k ∈ keys

/-- Every candidate is in a unit of work, and the attempts answer every candidate. -/
def OwnedFed (called : ℕ → Scope K → Call K → Prop) : OwnedPhase K V → Prop
  | .attempting _ _ chosen queue children => ∀ k ∈ chosen, (∃ item ∈ queue, k ∈ item) ∨
      ∃ child ∈ children, ∃ c source keys, called child c (.work source keys) ∧ k ∈ keys
  | .harvesting _ _ attempts rest _ => ∀ k ∈ rest, k ∈ attempts.map Prod.fst
  | _ => True

def BodyWhole (called : ℕ → Scope K → Call K → Prop) : Body K V → Prop
  | .resolveMany keys l p => keys.Nodup ∧ ManyWhole keys l p ∧ ManyFed called l p
  | .resolveOwned keys l p => keys.Nodup ∧ OwnedWhole keys l p ∧ OwnedFed called p
  | .work _ keys p => ∀ attempts, p = .done attempts → ∀ k ∈ keys, k ∈ attempts.map Prod.fst
  | .produce owned _ _ => owned.Nodup
  | .refresh _ _ => True

def State.Whole (s : State K V) : Prop := ∀ i f, s.frame? i = some f → BodyWhole s.Called f.body

/-- The next lookup of this frame finds nothing: `resolution_results[key]` or `attempts[key]`
raises a `KeyError`. -/
def Body.misses : Body K V → Bool
  | .resolveMany _ l (.collecting (key :: _)) => (l.results.get? key).isNone
  | .resolveOwned _ _ (.harvesting _ _ attempts (key :: _) _) => (Dict.find attempts key).isNone
  | _ => false

omit [DecidableEq K] in
theorem BodyWhole.mono {called called' : ℕ → Scope K → Call K → Prop}
    (h : ∀ i c k, called i c k → called' i c k) {body : Body K V} (hb : BodyWhole called body) :
    BodyWhole called' body := by
  cases body with
  | resolveMany keys l p =>
    refine ⟨hb.1, hb.2.1, ?_⟩
    have hfed := hb.2.2
    cases p with
    | resolving child shared =>
      refine ⟨hfed.1, fun k hk => (hfed.2 k hk).imp_right ?_⟩
      rintro ⟨c, owned, hc, ho⟩
      exact ⟨c, owned, h _ _ _ hc, ho⟩
    | _ => exact hfed
  | resolveOwned keys l p =>
    refine ⟨hb.1, hb.2.1, ?_⟩
    have hfed := hb.2.2
    cases p with
    | attempting source sources chosen queue children =>
      refine fun k hk => (hfed k hk).imp_right ?_
      rintro ⟨child, hchild, c, src, ks, hc, hks⟩
      exact ⟨child, hchild, c, src, ks, h _ _ _ hc, hks⟩
    | _ => exact hfed
  | _ => exact hb

/-! ## Moves of `_resolve_many` -/

omit [DecidableEq K] in
/-- An undecided key is in neither dictionary. -/
theorem undecided_new {values errors undecided keys : List K}
    (h : (values ++ errors ++ undecided).Perm keys) (hn : keys.Nodup) {k : K}
    (hk : k ∈ undecided) : k ∉ values ∧ k ∉ errors := by
  have hnodup := h.nodup_iff.mpr hn
  have hdisj := List.nodup_append.mp hnodup
  constructor
  · intro hv
    exact hdisj.2.2 k (List.mem_append_left _ hv) k hk rfl
  · intro he
    exact hdisj.2.2 k (List.mem_append_right _ he) k hk rfl

/-- The memo, forced refreshes and the cache divide the requested keys. -/
theorem start_whole (r : ResolutionRuntime K V) {keys : List K} (hn : keys.Nodup) :
    ((Dict.comprehend keys r.pinned).keys ++ (keys.filter r.requiresRefresh ++
      cacheKeysOf r keys)).Perm keys := by
  have hdecided : ((Dict.comprehend keys r.pinned).keys).Perm
      (keys.filter fun k => (r.pinned k).isSome) := by
    refine (List.perm_ext_iff_of_nodup (Dict.comprehend keys r.pinned).nodup (hn.filter _)).mpr ?_
    intro k
    show k ∈ (Dict.comprehend keys r.pinned).keys ↔ _
    rw [Dict.mem_keys_comprehend, List.mem_filter]
  have hrest : (keys.filter fun k => !(r.pinned k).isSome).Perm
      (keys.filter r.requiresRefresh ++ cacheKeysOf r keys) := by
    refine (List.filter_append_perm r.requiresRefresh _).symm.trans ?_
    rw [List.filter_filter, List.filter_filter]
    refine List.Perm.append (List.Perm.of_eq ?_) (List.Perm.of_eq ?_)
    · refine List.filter_congr fun k _ => ?_
      unfold ResolutionRuntime.pinned
      cases r.requiresRefresh k <;> simp
    · refine List.filter_congr fun k _ => ?_
      unfold ResolutionRuntime.pinned
      cases r.requiresRefresh k <;> simp
  exact (hdecided.append hrest.symm).trans (List.filter_append_perm _ keys)

variable {b : Builder K V} {s t : State K V} {c : Scope K} {e : Event K V} {m : Step K V}
  {called : ℕ → Scope K → Call K → Prop} {i : ℕ}

/-- A key that is decided moves from the undecided ones into a dictionary. -/
theorem decide_whole {values errors values' errors' undecided keys : List K} {k : K}
    (h : (values ++ errors ++ k :: undecided).Perm keys)
    (hd : values' = values ++ [k] ∧ errors' = errors ∨ values' = values ∧ errors' = errors ++ [k]) :
    (values' ++ errors' ++ undecided).Perm keys := by
  refine List.Perm.trans ?_ h
  rw [List.perm_iff_count]
  intro j
  rcases hd with ⟨rfl, rfl⟩ | ⟨rfl, rfl⟩
  · simp only [List.count_append, List.count_cons, List.count_nil]
    omega
  · simp only [List.count_append, List.count_cons, List.count_nil]
    omega

theorem ManyMove.whole {keys : List K} {l : ManyLocals K V} {p : ManyPhase K V}
    (hm : ManyMove b s c keys l p e m) (hn : keys.Nodup) (h : ManyWhole keys l p) :
    ∃ l' p', m.body = .resolveMany keys l' p' ∧ ManyWhole keys l' p' := by
  cases hm with
  | start =>
    refine ⟨_, _, rfl, fun _ => ?_⟩
    have hlen := (h (by simp)).length_eq
    simp only [ManyPhase.undecided, List.length_append] at hlen
    have herrors : l.errors.keys = [] := List.length_eq_zero_iff.mp (by omega)
    have hall := start_whole (s.runtime c.runtime) hn
    rw [herrors, List.append_nil]
    split
    · rename_i hnil
      rw [hnil] at hall
      simpa [ManyPhase.undecided] using hall
    · exact hall
  | @read cacheKeys now =>
    refine ⟨_, _, rfl, fun _ => ?_⟩
    have hw := h (by simp)
    have hnodup : cacheKeys.Nodup := by
      have hall := hw.nodup_iff.mpr hn
      exact (List.nodup_append.mp (List.nodup_append.mp hall).2.1).2.1
    rw [ManyPhase.undecided, AsyncMemoryCache.getMany, AsyncMemoryCache.getManyLocked_keys]
    rwa [Dict.fromKeys_of_nodup hnodup]
  | isolate =>
    refine ⟨_, _, rfl, fun _ => ?_⟩
    have hw := h (by simp)
    simpa [ManyPhase.undecided, List.map_map, Function.comp_def] using hw
  | served hp =>
    refine ⟨_, _, rfl, fun _ => ?_⟩
    have hw := h (by simp)
    simpa [ManyPhase.undecided, hp] using hw
  | share =>
    refine ⟨_, _, rfl, fun _ => ?_⟩
    have hw := h (by simp)
    simpa [ManyPhase.undecided] using hw
  | delegate =>
    refine ⟨_, _, rfl, fun _ => ?_⟩
    have hw := h (by simp)
    simpa [ManyPhase.undecided] using hw
  | hit => exact ⟨_, _, rfl, fun _ => h (by simp)⟩
  | miss =>
    refine ⟨_, _, rfl, fun _ => ?_⟩
    have hw := h (by simp)
    simpa [ManyPhase.undecided] using hw
  | missStale =>
    refine ⟨_, _, rfl, fun _ => ?_⟩
    have hw := h (by simp)
    simpa [ManyPhase.undecided] using hw
  | @install key copy rest =>
    refine ⟨_, _, rfl, fun _ => ?_⟩
    have hw := h (by simp)
    have hnew := undecided_new hw hn (k := key)
      (List.mem_append_right _ List.mem_cons_self)
    have hmid : (l.values.keys ++ l.errors.keys ++ key :: (l.pending ++ rest.map Prod.fst)).Perm
        keys := (List.Perm.append_left _ List.perm_middle.symm).trans hw
    exact decide_whole hmid (.inl ⟨Dict.keys_set_new hnew.1 copy, rfl⟩)
  | delegated =>
    refine ⟨_, _, rfl, fun _ => ?_⟩
    have hw := h (by simp)
    split
    · exact hw
    · exact hw
  | delegateRaised => exact ⟨_, _, rfl, fun hne => absurd rfl (hne _)⟩
  | reserve => exact ⟨_, _, rfl, fun _ => h (by simp)⟩
  | joined => exact ⟨_, _, rfl, fun _ => h (by simp)⟩
  | joinRaised => exact ⟨_, _, rfl, fun hne => absurd rfl (hne _)⟩
  | collected => exact ⟨_, _, rfl, fun _ => h (by simp)⟩
  | collectMissing => exact ⟨_, _, rfl, fun hne => absurd rfl (hne _)⟩
  | @collectValue key rest value =>
    refine ⟨_, _, rfl, fun _ => ?_⟩
    have hw := h (by simp)
    have hnew := undecided_new hw hn (k := key) List.mem_cons_self
    exact decide_whole hw (.inl ⟨Dict.keys_set_new hnew.1 value, rfl⟩)
  | @collectError key rest err =>
    refine ⟨_, _, rfl, fun _ => ?_⟩
    have hw := h (by simp)
    have hnew := undecided_new hw hn (k := key) List.mem_cons_self
    exact decide_whole hw (.inr ⟨rfl, Dict.keys_set_new hnew.2 err⟩)
  | collectStale => exact ⟨_, _, rfl, fun _ => h (by simp)⟩
  | @fallBack key copy rest =>
    refine ⟨_, _, rfl, fun _ => ?_⟩
    have hw := h (by simp)
    have hnew := undecided_new hw hn (k := key) List.mem_cons_self
    exact decide_whole hw (.inl ⟨Dict.keys_set_new hnew.1 copy, rfl⟩)
  | interrupt => exact ⟨_, _, rfl, fun hne => absurd rfl (hne _)⟩

omit [DecidableEq K] in
/-- The pending keys are distinct once every lookup is served. -/
theorem pending_nodup {keys : List K} {l : ManyLocals K V} (h : ManyWhole keys l (.serving []))
    (hn : keys.Nodup) : l.pending.Nodup := by
  have hall := (h nofun).nodup_iff.mpr hn
  exact (List.nodup_append.mp (List.nodup_append.mp hall).2.1).1

/-- A reservation has a future for every key. -/
theorem reserve_keys (s : State K V) (c : Scope K) (keys : List K) :
    (s.reserve c keys).1.map Prod.fst = keys := by
  unfold State.reserve
  dsimp only
  split <;> simp [List.map_map, Function.comp_def]

/-- `gather` answers every key it was given a future for. -/
theorem joined_keys {futures : List (K × ℕ)} {joined : Dict K (ResolutionResult K V)} {k : K}
    (h : s.joined futures = some joined) (hk : k ∈ futures.map Prod.fst) : k ∈ joined.keys := by
  unfold State.joined at h
  split at h
  · rename_i hall
    rw [Option.some.injEq] at h
    subst h
    rw [Dict.mem_keys_comprehend]
    refine ⟨hk, ?_⟩
    cases hfind : Dict.find futures k with
    | none => exact absurd hk (Dict.find_eq_none.mp hfind)
    | some q => exact List.all_eq_true.mp hall (k, q) (Dict.mem_of_find hfind)
  · cases h

/-- Every pending key has its result, or a part of the call that will give it. -/
theorem ManyMove.fed {keys : List K} {l : ManyLocals K V} {p : ManyPhase K V}
    (hm : ManyMove b s c keys l p e m) (hs : s.Whole)
    (hspawn : ∀ g, m.spawn = some g → called s.frames.length g.scope g.body.call)
    (hn : keys.Nodup) (hw : ManyWhole keys l p) (h : ManyFed s.Called l p) :
    ∃ l' p', m.body = .resolveMany keys l' p' ∧ ManyFed called l' p' := by
  cases hm with
  | start =>
    refine ⟨_, _, rfl, ?_⟩
    split <;> trivial
  | read => exact ⟨_, _, rfl, trivial⟩
  | isolate => exact ⟨_, _, rfl, trivial⟩
  | served => exact ⟨_, _, rfl, trivial⟩
  | share hd =>
    refine ⟨_, _, rfl, (pending_nodup hw hn).filter _,
      fun k hk => .inr (List.mem_filter.mpr ⟨hk, ?_⟩)⟩
    have hnot := List.filter_eq_nil_iff.mp hd k hk
    simpa using hnot
  | delegate hd =>
    refine ⟨_, _, rfl, (pending_nodup hw hn).filter _, fun k hk => ?_⟩
    by_cases hdirect : ownsDirectly c (s.runtime c.runtime) k = true
    · exact .inr ⟨_, _, hspawn _ rfl, List.mem_filter.mpr ⟨hk, hdirect⟩⟩
    · exact .inl (List.mem_filter.mpr ⟨hk, by simpa using hdirect⟩)
  | hit => exact ⟨_, _, rfl, trivial⟩
  | miss => exact ⟨_, _, rfl, trivial⟩
  | missStale => exact ⟨_, _, rfl, trivial⟩
  | install => exact ⟨_, _, rfl, trivial⟩
  | @delegated child shared resolved ho =>
    have hresults : ∀ k ∈ l.pending, k ∈ (l.results.update resolved).keys ∨ k ∈ shared := by
      intro k hk
      rcases h.2 k hk with hshared | ⟨cq, owned, hcalled, hmem⟩
      · exact .inr hshared
      · obtain ⟨cq', keys', lo, hf, rfl⟩ := ownedOutcome_ok ho
        obtain ⟨_, hcall⟩ := hcalled.unique ⟨_, hf, rfl, rfl⟩
        rw [Body.call, Call.owned.injEq] at hcall
        subst hcall
        have hsettled := (hs child _ hf).2.1.settled nofun k hmem
        simp only [OwnedPhase.unsettled, List.not_mem_nil, or_false] at hsettled
        exact .inl (Dict.mem_keys_update.mpr (.inl hsettled))
    refine ⟨_, _, rfl, ?_⟩
    split
    · rename_i hnil
      intro k hk
      rcases hresults k hk with hin | hin
      · exact hin
      · rw [hnil] at hin
        cases hin
    · exact ⟨h.1, hresults⟩
  | delegateRaised => exact ⟨_, _, rfl, trivial⟩
  | @reserve shared =>
    refine ⟨_, _, rfl, fun k hk => (h.2 k hk).imp_right fun hshared => ?_⟩
    rw [reserve_keys]
    exact hshared
  | @joined futures joined hj =>
    refine ⟨_, _, rfl, fun k hk => ?_⟩
    rcases h k hk with hin | hin
    · exact Dict.mem_keys_update.mpr (.inr hin)
    · exact Dict.mem_keys_update.mpr (.inl (joined_keys hj hin))
  | joinRaised => exact ⟨_, _, rfl, trivial⟩
  | collected => exact ⟨_, _, rfl, trivial⟩
  | collectMissing => exact ⟨_, _, rfl, trivial⟩
  | collectValue => exact ⟨_, _, rfl, fun k hk => h k (List.mem_cons_of_mem _ hk)⟩
  | collectError => exact ⟨_, _, rfl, fun k hk => h k (List.mem_cons_of_mem _ hk)⟩
  | collectStale => exact ⟨_, _, rfl, fun k hk => h k (List.mem_cons_of_mem _ hk)⟩
  | fallBack => exact ⟨_, _, rfl, h⟩
  | interrupt => exact ⟨_, _, rfl, trivial⟩

/-! ## Moves of `_resolve_owned_keys` -/

theorem mem_settle_unresolved {l : OwnedLocals K V} {k : K} :
    k ∈ l.settle.unresolved ↔ k ∈ l.unresolved ∧ k ∉ l.resolved.keys := by
  simp [OwnedLocals.settle]

/-- What leaves the list of unresolved keys has a result. -/
theorem OwnedWhole.settle {keys : List K} {l : OwnedLocals K V} {p p' : OwnedPhase K V}
    (h : OwnedWhole keys l p) (hp : ∀ e, p ≠ .raised e) (hun : p.unsettled l = l.unresolved)
    (hun' : p'.unsettled l.settle = l.settle.unresolved) (hway : p'.underway = []) :
    OwnedWhole keys l.settle p' := by
  constructor
  · intro _ k hk
    rw [hun', mem_settle_unresolved]
    have hk' := h.settled hp k hk
    rw [hun] at hk'
    by_cases hres : k ∈ l.resolved.keys
    · exact .inl hres
    · exact .inr ⟨hk'.resolve_left hres, hres⟩
  · intro k hk
    rw [hway, mem_settle_unresolved] at hk
    rcases hk with hk | hk | hk
    · exact h.owned k (.inl hk)
    · exact h.owned k (.inr (.inl hk.1))
    · cases hk

theorem mem_visit_resolved {r : ResolutionRuntime K V} {l : OwnedLocals K V} {k : K} :
    k ∈ (Builder.visit r l).resolved.keys ↔
      (k ∈ l.unresolved ∧ (r.pinned k).isSome) ∨ k ∈ l.resolved.keys := by
  simp [Builder.visit, Dict.mem_keys_update, Dict.mem_keys_comprehend]

theorem mem_visit_rest {r : ResolutionRuntime K V} {l : OwnedLocals K V} {k : K} :
    k ∈ (Builder.visit r l).unresolved ↔
      k ∈ l.unresolved ∧ k ∉ (Builder.visit r l).resolved.keys := by
  simp [Builder.visit]

theorem resolved_consider (source : Source K) (keys : List K) (l : OwnedLocals K V) :
    (Builder.consider source l keys).resolved = l.resolved := by
  unfold Builder.consider
  induction keys generalizing l with
  | nil => rfl
  | cons key keys ih =>
    rw [List.foldl_cons, ih]
    split <;> rfl

theorem resolved_keepStale (b : Builder K V) (l : OwnedLocals K V) (key : K)
    (value : SnapshotValue K V) : (b.keepStale l key value).resolved = l.resolved := by
  unfold Builder.keepStale
  split <;> rfl

/-- A key that is given up or falls back to a stale value has its result. -/
theorem OwnedWhole.finish {keys : List K} {l : OwnedLocals K V} {key : K} {rest : List K}
    {stales : List (SnapshotValue K V)} (h : OwnedWhole keys l (.finishing (key :: rest) stales))
    (r : ResolutionResult K V) :
    (∀ k ∈ keys, k ∈ (l.resolved.set key r).keys ∨ k ∈ rest) ∧
      ∀ k, k ∈ (l.resolved.set key r).keys ∨ k ∈ l.unresolved ∨ k ∈ rest → k ∈ keys := by
  constructor
  · intro k hk
    rw [Dict.mem_keys_set]
    rcases h.settled nofun k hk with hold | hold
    · exact .inl (.inr hold)
    · rcases List.mem_cons.mp hold with rfl | hold
      · exact .inl (.inl rfl)
      · exact .inr hold
  · rintro k (hk | hk | hk)
    · rcases Dict.mem_keys_set.mp hk with rfl | hk
      · exact h.owned _ (.inr (.inr List.mem_cons_self))
      · exact h.owned k (.inl hk)
    · exact h.owned k (.inr (.inl hk))
    · exact h.owned k (.inr (.inr (List.mem_cons_of_mem _ hk)))

/-- One visit: pinned keys get their result, the others stay. -/
theorem OwnedWhole.visit {keys : List K} {l : OwnedLocals K V} {sources : List (Source K)}
    (h : OwnedWhole keys l (.visiting sources)) (r : ResolutionRuntime K V) :
    (∀ k ∈ keys, k ∈ (Builder.visit r l).resolved.keys ∨ k ∈ (Builder.visit r l).unresolved) ∧
      ∀ k, k ∈ (Builder.visit r l).resolved.keys ∨ k ∈ (Builder.visit r l).unresolved →
        k ∈ keys := by
  constructor
  · intro k hk
    rw [mem_visit_rest]
    by_cases hres : k ∈ (Builder.visit r l).resolved.keys
    · exact .inl hres
    · refine .inr ⟨?_, hres⟩
      rcases h.settled nofun k hk with hold | hold
      · exact absurd (mem_visit_resolved.mpr (.inr hold)) hres
      · exact hold
  · intro k hk
    rw [mem_visit_rest, mem_visit_resolved] at hk
    rcases hk with (hk | hk) | hk
    · exact h.owned k (.inr (.inl hk.1))
    · exact h.owned k (.inl hk)
    · exact h.owned k (.inr (.inl hk.1))

theorem OwnedMove.whole {keys : List K} {l : OwnedLocals K V} {p : OwnedPhase K V}
    (hm : OwnedMove b s c keys l p e m) (h : OwnedWhole keys l p) :
    ∃ l' p', m.body = .resolveOwned keys l' p' ∧ OwnedWhole keys l' p' := by
  cases hm with
  | exhausted =>
    refine ⟨_, _, rfl, ⟨fun _ => h.settled (by simp), ?_⟩⟩
    rintro k (hk | hk | hk)
    · exact h.owned k (.inl hk)
    · exact h.owned k (.inr (.inl hk))
    · exact h.owned k (.inr (.inl hk))
  | settled hu =>
    obtain ⟨hall, hback⟩ := h.visit (s.runtime c.runtime)
    rw [hu] at hall hback
    refine ⟨_, _, rfl, ⟨fun _ => hall, ?_⟩⟩
    rintro k (hk | hk | hk)
    · exact hback k (.inl hk)
    · rw [hu] at hk
      cases hk
    · cases hk
  | skip hl =>
    subst hl
    obtain ⟨hall, hback⟩ := h.visit (s.runtime c.runtime)
    refine ⟨_, _, rfl, ⟨fun _ => ?_, ?_⟩⟩
    · show ∀ k ∈ keys, k ∈ (Builder.consider _ _ _).resolved.keys ∨
        k ∈ (Builder.consider _ _ _).unresolved
      rw [resolved_consider, unresolved_consider]
      exact hall
    · rw [resolved_consider, unresolved_consider]
      rintro k (hk | hk | hk)
      · exact hback k (.inl hk)
      · exact hback k (.inr hk)
      · cases hk
  | attempt hl hc =>
    subst hl hc
    obtain ⟨hall, hback⟩ := h.visit (s.runtime c.runtime)
    refine ⟨_, _, rfl, ⟨fun _ => ?_, ?_⟩⟩
    · show ∀ k ∈ keys, k ∈ (Builder.consider _ _ _).resolved.keys ∨
        k ∈ (Builder.consider _ _ _).unresolved
      rw [resolved_consider, unresolved_consider]
      exact hall
    · rw [resolved_consider, unresolved_consider]
      rintro k (hk | hk | hk)
      · exact hback k (.inl hk)
      · exact hback k (.inr hk)
      · exact hback k (.inr (List.mem_of_mem_filter (mem_candidates.mp hk).1))
  | dispatch => exact ⟨_, _, rfl, ⟨fun _ => h.settled (by simp), h.owned⟩⟩
  | gather =>
    refine ⟨_, _, rfl, ⟨fun _ => h.settled (by simp), ?_⟩⟩
    intro k hk
    simp only [OwnedPhase.underway, List.map_nil, List.append_nil] at hk
    exact h.owned k hk
  | harvestMissing =>
    refine ⟨_, _, rfl, ⟨fun hne => absurd rfl (hne _), ?_⟩⟩
    rintro k (hk | hk | hk)
    · exact h.owned k (.inl hk)
    · exact h.owned k (.inr (.inl hk))
    · cases hk
  | refuse =>
    refine ⟨_, _, rfl, ⟨fun _ => h.settled (by simp), ?_⟩⟩
    rintro k (hk | hk | hk)
    · exact h.owned k (.inl hk)
    · exact h.owned k (.inr (.inl hk))
    · exact h.owned k (.inr (.inr (List.mem_cons_of_mem _ hk)))
  | @keep source sources attempts attempt key rest fresh value versions =>
    refine ⟨_, _, rfl, ⟨fun _ => ?_, ?_⟩⟩
    · show ∀ k ∈ keys, k ∈ (b.keepStale l key value).resolved.keys ∨
        k ∈ (b.keepStale l key value).unresolved
      rw [resolved_keepStale, unresolved_keepStale]
      exact h.settled (by simp)
    · show ∀ k, k ∈ (b.keepStale l key value).resolved.keys ∨
        k ∈ (b.keepStale l key value).unresolved ∨ _ → k ∈ keys
      rw [resolved_keepStale, unresolved_keepStale]
      rintro k (hk | hk | hk)
      · exact h.owned k (.inl hk)
      · exact h.owned k (.inr (.inl hk))
      · exact h.owned k (.inr (.inr (List.mem_cons_of_mem _ hk)))
  | @accept source sources attempts attempt key rest fresh value versions ha hh =>
    obtain ⟨payload, _, rfl⟩ := harvest_value (.inl hh)
    have hkey : key ∈ keys := h.owned key (.inr (.inr (List.mem_append_left _ List.mem_cons_self)))
    refine ⟨_, _, rfl, ⟨fun _ k hk => ?_, ?_⟩⟩
    · rcases h.settled (by simp) k hk with hold | hold
      · exact .inl (Dict.mem_keys_set.mpr (.inr hold))
      · exact .inr hold
    · rintro k (hk | hk | hk)
      · rcases Dict.mem_keys_set.mp hk with rfl | hk
        · exact hkey
        · exact h.owned k (.inl hk)
      · exact h.owned k (.inr (.inl hk))
      · simp only [OwnedPhase.underway, List.map_append, List.map_cons, List.map_nil,
          List.mem_append, List.mem_singleton] at hk
        rcases hk with hk | hk | rfl
        · exact h.owned k (.inr (.inr (List.mem_append_left _ (List.mem_cons_of_mem _ hk))))
        · exact h.owned k (.inr (.inr (List.mem_append_right _ hk)))
        · exact hkey
  | publish =>
    refine ⟨_, _, rfl, ⟨fun _ => h.settled (by simp), ?_⟩⟩
    intro k hk
    exact h.owned k (by simpa [OwnedPhase.underway] using hk)
  | harvested => exact ⟨_, _, rfl, h.settle (by simp) rfl rfl rfl⟩
  | @write sources fresh =>
    refine ⟨_, _, rfl, ⟨fun _ => h.settled (by simp), ?_⟩⟩
    rintro k (hk | hk | hk)
    · exact h.owned k (.inl hk)
    · exact h.owned k (.inr (.inl hk))
    · obtain ⟨w, hw, rfl⟩ := List.mem_map.mp hk
      obtain ⟨v, hv, hkey, _⟩ := mem_superseded hw
      rw [hkey]
      exact h.owned _ (.inr (.inr (List.mem_map_of_mem hv)))
  | wrote => exact ⟨_, _, rfl, ⟨fun _ => h.settled (by simp), h.owned⟩⟩
  | superseded => exact ⟨_, _, rfl, h.settle (by simp) rfl rfl rfl⟩
  | supersede => exact ⟨_, _, rfl, ⟨fun _ => h.settled (by simp), h.owned⟩⟩
  | @installWinner sources key copy rest =>
    refine ⟨_, _, rfl, ⟨fun _ k hk => ?_, ?_⟩⟩
    · rcases h.settled (by simp) k hk with hold | hold
      · exact .inl (Dict.mem_keys_set.mpr (.inr hold))
      · exact .inr hold
    · rintro k (hk | hk | hk)
      · rcases Dict.mem_keys_set.mp hk with rfl | hk
        · exact h.owned _ (.inr (.inr List.mem_cons_self))
        · exact h.owned k (.inl hk)
      · exact h.owned k (.inr (.inl hk))
      · exact h.owned k (.inr (.inr (List.mem_cons_of_mem _ hk)))
  | @finishStale key rest stales stale hb hr =>
    obtain ⟨hall, hback⟩ := h.finish (Except.ok stale)
    exact ⟨_, _, rfl, ⟨fun _ => hall, hback⟩⟩
  | @finishError key rest stales =>
    obtain ⟨hall, hback⟩ := h.finish
      (Except.error (Error.resourceResolution key ((l.failures.get? key).getD [])))
    exact ⟨_, _, rfl, ⟨fun _ => hall, hback⟩⟩
  | publishStale => exact ⟨_, _, rfl, ⟨fun _ => h.settled (by simp), h.owned⟩⟩
  | finished => exact ⟨_, _, rfl, ⟨fun _ => h.settled (by simp), h.owned⟩⟩
  | writeStale => exact ⟨_, _, rfl, ⟨fun _ => h.settled (by simp), h.owned⟩⟩
  | wroteStale => exact ⟨_, _, rfl, ⟨fun _ => h.settled (by simp), h.owned⟩⟩
  | interrupt =>
    refine ⟨_, _, rfl, ⟨fun hne => absurd rfl (hne _), ?_⟩⟩
    rintro k (hk | hk | hk)
    · exact h.owned k (.inl hk)
    · exact h.owned k (.inr (.inl hk))
    · cases hk

/-- Every candidate is in a unit of work, and what the units answer covers the candidates. -/
theorem OwnedMove.fed {keys : List K} {l : OwnedLocals K V} {p : OwnedPhase K V}
    (hm : OwnedMove b s c keys l p e m) (hs : s.Whole)
    (hmono : ∀ i c k, s.Called i c k → called i c k)
    (hspawn : ∀ g, m.spawn = some g → called s.frames.length g.scope g.body.call)
    (h : OwnedFed s.Called p) :
    ∃ l' p', m.body = .resolveOwned keys l' p' ∧ OwnedFed called p' := by
  cases hm with
  | @attempt source sources l₁ chosen hl hc =>
    refine ⟨_, _, rfl, fun k hk => .inl ?_⟩
    rw [← source.flatten_items chosen] at hk
    exact List.mem_flatten.mp hk
  | @dispatch source sources chosen item queue children =>
    refine ⟨_, _, rfl, fun k hk => ?_⟩
    rcases h k hk with ⟨item', hitem, hmem⟩ | ⟨child, hchild, cw, src, ks, hcalled, hmem⟩
    · rcases List.mem_cons.mp hitem with rfl | hitem
      · exact .inr ⟨_, List.mem_append_right _ (List.mem_singleton_self _), _, _, _,
          hspawn _ rfl, hmem⟩
      · exact .inl ⟨item', hitem, hmem⟩
    · exact .inr ⟨child, List.mem_append_left _ hchild, cw, src, ks, hmono _ _ _ hcalled, hmem⟩
  | @gather source sources chosen children hc =>
    refine ⟨_, _, rfl, fun k hk => ?_⟩
    rcases h k hk with ⟨item, hitem, _⟩ | ⟨child, hchild, cw, src, ks, hcalled, hmem⟩
    · cases hitem
    · obtain ⟨attempts, hout⟩ := Option.isSome_iff_exists.mp (hc child hchild)
      obtain ⟨cw', src', ks', hf⟩ := workOutcome_some hout
      obtain ⟨_, hcall⟩ := hcalled.unique ⟨_, hf, rfl, rfl⟩
      rw [Body.call, Call.work.injEq] at hcall
      obtain ⟨_, rfl⟩ := hcall
      obtain ⟨entry, hentry, rfl⟩ := List.mem_map.mp (hs child _ hf attempts rfl k hmem)
      refine List.mem_map_of_mem (List.mem_flatMap.mpr ⟨child, hchild, ?_⟩)
      rw [hout]
      exact hentry
  | refuse => exact ⟨_, _, rfl, fun k hk => h k (List.mem_cons_of_mem _ hk)⟩
  | keep => exact ⟨_, _, rfl, fun k hk => h k (List.mem_cons_of_mem _ hk)⟩
  | accept => exact ⟨_, _, rfl, fun k hk => h k (List.mem_cons_of_mem _ hk)⟩
  | _ => exact ⟨_, _, rfl, trivial⟩

/-! ## Steps -/

omit [DecidableEq K] in
theorem keys_failAll (keys : List K) (err : Error K) :
    (failAll keys err : List (K × SourceAttempt K V)).map Prod.fst = keys := by
  simp [failAll, List.map_map, Function.comp_def]

theorem keys_batchAttempts (b : Builder K V) (now : ℚ) (keys : List K)
    (payloads : Dict K (SourcePayload V)) :
    (b.batchAttempts now keys payloads).map Prod.fst = keys := by
  unfold Builder.batchAttempts
  split <;> simp [List.map_map, Function.comp_def]

theorem keys_answers (b : Builder K V) (now : ℚ) (versions : Dict K ℕ) {keys : List K}
    {payloads : Dict K (SourcePayload V)} (h : ∀ k ∈ keys, (payloads.get? k).isSome = true) :
    (keys.filterMap fun key => (payloads.get? key).map fun payload =>
      (key, b.attemptOf now versions payload)).map Prod.fst = keys := by
  induction keys with
  | nil => rfl
  | cons key keys ih =>
    obtain ⟨payload, hpayload⟩ := Option.isSome_iff_exists.mp (h key List.mem_cons_self)
    have hrest := ih fun k hk => h k (List.mem_cons_of_mem _ hk)
    simp [hpayload, hrest]

/-- A finished unit of work has an attempt for each of its keys. -/
theorem moveWork_whole {source : Source K} {keys : List K} {p : WorkPhase K V}
    (hm : b.moveWork s c source keys p e = some m) : BodyWhole called m.body := by
  unfold Builder.moveWork at hm
  split at hm
  · dsimp only at hm
    split at hm
    · cases hm
    · split at hm
      · cases hm
        rintro attempts ⟨⟩ k hk
        rwa [keys_failAll]
      · split at hm
        · cases hm
          rintro attempts ⟨⟩ k hk
          rwa [keys_failAll]
        · cases hm
          rintro attempts ⟨⟩
  · split at hm
    · split at hm
      · cases hm
        rintro attempts ⟨⟩
      · cases hm
        rintro attempts ⟨⟩ k hk
        simpa [List.map_map, Function.comp_def] using hk
    · cases hm
      rintro attempts ⟨⟩ k hk
      rwa [keys_failAll]
    · cases hm
  · cases hm
    rintro attempts ⟨⟩
  · split at hm
    · cases hm
      rintro attempts ⟨⟩ k hk
      rwa [keys_batchAttempts]
    · split at hm
      · rename_i hall
        cases hm
        rintro attempts ⟨⟩ k hk
        rwa [keys_answers b s.now _ (List.all_eq_true.mp hall)]
      · cases hm
  · split at hm
    · cases hm
      rintro attempts ⟨⟩ k hk
      rwa [keys_failAll]
    · cases hm
  · cases hm
    rintro attempts ⟨⟩ k hk
    rwa [keys_failAll]
  · cases hm

/-- A producer owns distinct keys. -/
theorem reserve_whole {keys : List K} (hn : keys.Nodup) {g : Frame K V}
    (h : (s.reserve c keys).2.2 = some g) : BodyWhole called g.body := by
  unfold State.reserve at h
  dsimp only at h
  split at h
  · cases h
  · cases h
    exact hn.filter _

/-- A started coroutine has lost nothing yet. -/
theorem Move.spawn_whole {body : Body K V} (hm : Move b s c body e m)
    (h : BodyWhole s.Called body) : ∀ g, m.spawn = some g → BodyWhole called g.body := by
  intro g hg
  have howned : ∀ keys : List K, keys.Nodup → BodyWhole called
      (.resolveOwned keys (.new keys) (.visiting b.sources) : Body K V) := by
    intro keys hn
    refine ⟨hn, ⟨fun _ k hk => .inr hk, ?_⟩, trivial⟩
    rintro k (hk | hk | hk)
    · cases hk
    · exact hk
    · cases hk
  cases hm with
  | many hm =>
    cases hm with
    | delegate =>
      cases hg
      exact howned _ ((pending_nodup h.2.1 h.1).filter _)
    | hit =>
      rw [schedule_spawn hg]
      trivial
    | reserve => exact reserve_whole h.2.2.1 hg
    | _ => cases hg
  | owned hm =>
    cases hm with
    | dispatch =>
      cases hg
      show BodyWhole called (.work _ _ (if _ then _ else _))
      split <;> exact nofun
    | _ => cases hg
  | work hm =>
    cases hm with
    | @depend key rest declared =>
      cases hg
      exact ⟨Dict.nodup_fromKeys _, fun _ => List.Perm.refl _, trivial⟩
    | _ => cases hg
  | produce hm =>
    cases hm with
    | start =>
      cases hg
      exact howned _ h
    | _ => cases hg
  | refresh hm =>
    cases hm with
    | reserve => exact reserve_whole (List.nodup_singleton _) hg
    | _ => cases hg

theorem move_whole {f : Frame K V} (hm : b.move s f e = some m) (hs : s.Whole)
    (hmono : ∀ i c k, s.Called i c k → called i c k)
    (hspawn : ∀ g, m.spawn = some g → called s.frames.length g.scope g.body.call)
    (h : BodyWhole s.Called f.body) : BodyWhole called m.body := by
  have hmove := move_cases hm
  obtain ⟨c, body⟩ := f
  cases hmove with
  | many hmove =>
    obtain ⟨l', p', hbody, hwhole⟩ := hmove.whole h.1 h.2.1
    obtain ⟨l'', p'', hbody', hfed⟩ := hmove.fed hs hspawn h.1 h.2.1 h.2.2
    rw [hbody, Body.resolveMany.injEq] at hbody'
    obtain ⟨_, rfl, rfl⟩ := hbody'
    rw [hbody]
    exact ⟨h.1, hwhole, hfed⟩
  | owned hmove =>
    obtain ⟨l', p', hbody, hwhole⟩ := hmove.whole h.2.1
    obtain ⟨l'', p'', hbody', hfed⟩ := hmove.fed hs hmono hspawn h.2.2
    rw [hbody, Body.resolveOwned.injEq] at hbody'
    obtain ⟨_, rfl, rfl⟩ := hbody'
    rw [hbody]
    exact ⟨h.1, hwhole, hfed⟩
  | work hmove => exact moveWork_whole hm
  | produce hmove => cases hmove <;> exact h
  | refresh hmove => cases hmove <;> trivial

theorem step_whole {l : Label K V} (h : b.step s l = some t) (hs : s.Whole) : t.Whole := by
  have hmono : ∀ i c k, s.Called i c k → t.Called i c k :=
    fun _ _ _ hc => (step_cases h).called hc
  intro j g hj
  cases l with
  | run i e =>
    obtain ⟨f, m, hf, hm, rfl⟩ := step_run.mp h
    rcases frame?_apply_cases hf hj with ⟨rfl, rfl⟩ | ⟨rfl, hsp⟩ | ⟨_, hg⟩
    · exact move_whole hm hs hmono (fun g hg => called_spawn hf hg) (hs j f hf)
    · exact (move_cases hm).spawn_whole (hs i f hf) g hsp
    · exact (hs j g hg).mono hmono
  | tick =>
    cases h
    exact hs j g hj
  | openRuntime r =>
    rw [Builder.step] at h
    split at h
    · cases h
      exact hs j g hj
    · cases h
  | call runtime deadline keys =>
    rw [Builder.step] at h
    split at h
    · cases h
      rcases frame?_append_cases hj with hg | ⟨_, rfl⟩
      · exact (hs j g hg).mono hmono
      · exact ⟨Dict.nodup_fromKeys _, fun _ => List.Perm.refl _, trivial⟩
    · cases h
  | external =>
    cases h
    exact hs j g hj

/-- No lookup of a whole state misses. -/
theorem State.Whole.misses (hs : s.Whole) {f : Frame K V} (hf : s.frame? i = some f) :
    f.body.misses = false := by
  have hbody := hs i f hf
  unfold Body.misses
  split
  · rename_i keys l key rest heq
    rw [heq] at hbody
    obtain ⟨r, hr⟩ := Dict.mem_keys.mp (hbody.2.2 key List.mem_cons_self)
    rw [hr]
    rfl
  · rename_i keys l source sources attempts key rest fresh heq
    rw [heq] at hbody
    have hkey := hbody.2.2 key List.mem_cons_self
    cases hfind : Dict.find attempts key with
    | none => exact absurd hkey (Dict.find_eq_none.mp hfind)
    | some a => rfl
  · rfl

/-! ## Values under their keys -/

/-- Every value is held under its own key. -/
def ownKeys : Discipline K V where
  covers _ _ := True
  covers_mono _ _ _ _ _ := trivial
  asked _ _ _ := True
  acquired _ _ _ := True
  clock _ := True
  lookup _ k lookup := ∀ v, lookup.value = some v → v.key = k
  candidate _ k v := v.key = k
  copy _ k v := v.key = k
  served _ k v := v.key = k
  value _ k v := v.key = k
  best _ k v := v.key = k
  winner _ k v := v.key = k
  error _ _ _ := True
  raised _ _ := True
  failure _ _ _ := True
  attempt _ _ _ _ := True
  derivable _ _ _ := True
  dependencies _ _ _ _ := True
  shares _ _ := True

/-- A memo holds every value under its own key. -/
def ResolutionRuntime.Keyed (r : ResolutionRuntime K V) : Prop :=
  ∀ k v, r.memo.get? k = some v → v.key = k

theorem superseded_key {fresh : List (SnapshotValue K V)} {entry : K × SnapshotValue K V}
    (h : entry ∈ superseded b fresh (b.setMany s.cache fresh).1) : entry.2.key = entry.1 := by
  obtain ⟨v, _, hkey, r, hfind, hstatus, hclone⟩ := mem_superseded h
  have hold := (setMany_ignored b s.cache fresh hfind (by rw [hstatus]; decide)).1
  have hvalue : r.value.key = v.key := s.cache.entries.keyed hold
  rw [hclone, hkey]
  exact hvalue

theorem ownKeys_rules {body : Body K V} (hmemos : ∀ n, (s.runtime n).Keyed) :
    Rules b s c body e ownKeys where
  clock := trivial
  refreshed _ _ := trivial
  missing _ _ _ := trivial
  pinned k v _ hv := hmemos _ k v (ResolutionRuntime.pinned_eq_some.mp hv).2
  revisited k v _ hv := hmemos _ k v (ResolutionRuntime.pinned_eq_some.mp hv).2
  read now k lookup _ _ h := by
    intro v hv
    rcases h with ⟨hnone, _⟩ | ⟨w, hget, rfl, _⟩
    · rw [hnone] at hv
      cases hv
    · cases hv
      exact s.cache.entries.keyed hget
  isolated k lookup h := by
    intro v hv
    obtain ⟨w, hw, rfl⟩ := Option.map_eq_some_iff.mp hv
    exact h w hw
  hit k lookup v _ h hv _ := h v hv
  kept k lookup v h hv _ _ := h v hv
  fallback _ _ _ h _ := h
  installed _ _ _ h := h
  serve _ _ _ _ _ _ _ _ h := h
  joins _ _ _ _ _ _ _ := ⟨trivial, trivial⟩
  shares_self := trivial
  joinValue _ _ _ _ _ _ h := h
  joinError _ _ _ _ _ _ _ := trivial
  joinRaised _ _ _ _ := trivial
  unsupported _ _ _ _ _ _ := trivial
  direct _ _ _ _ _ := trivial
  undeclared _ _ _ _ _ _ := trivial
  cyclic _ _ _ _ _ _ _ _ _ _ := trivial
  depends _ _ _ _ _ _ _ _ _ _ _ := trivial
  derives _ _ _ _ _ _ _ _ := trivial
  unresolved _ _ _ := trivial
  childRaised _ _ _ _ := trivial
  versions _ _ _ _ _ := trivial
  answered _ _ _ _ _ _ _ := trivial
  answeredBatch _ _ _ _ _ _ _ _ := trivial
  omitted _ _ _ _ := trivial
  failed _ _ _ _ _ _ _ _ := trivial
  interrupted _ _ := trivial
  refused _ _ _ _ _ _ := trivial
  stale _ _ _ _ _ _ h := by
    obtain ⟨payload, rfl, rfl⟩ := harvest_value (.inr h)
    exact ⟨trivial, fun _ => rfl⟩
  fresh _ _ _ _ _ _ _ _ _ _ _ _ _ _ h := by
    obtain ⟨payload, rfl, rfl⟩ := harvest_value (.inl h)
    rfl
  superseded _ _ _ h := superseded_key h
  supersedes _ _ _ _ _ _ _ _ h := h
  bestStale _ _ _ _ _ _ _ _ h := h
  exhausted _ _ _ := trivial
  omittedKey _ _ := trivial

/-- A session starts with a memo that holds every value under its own key. -/
def OpensKeyed (_ : State K V) (l : Label K V) : Prop := ∀ r, l = .openRuntime r → r.Keyed

/-- What runs keep: every key is accounted for, and values stay under their keys. -/
structure Complete (b : Builder K V) (s : State K V) : Prop where
  shape : Shape b s
  whole : s.Whole
  memos : ∀ n, (s.runtime n).Keyed
  keeps : s.Keeps ownKeys

omit [DecidableEq K] in
theorem keyed_new [DecidableEq K] : (ResolutionRuntime.new : ResolutionRuntime K V).Keyed := nofun

theorem complete_initial (b : Builder K V) (now : ℚ) (cache : AsyncMemoryCache K V)
    (revisions : List (Dict K ℕ)) : Complete b (State.initial now cache revisions) := by
  have hnone : ∀ (i : ℕ) (f : Frame K V),
      (State.initial now cache revisions).frame? i ≠ some f := by
    intro i f hf
    simp [State.frame?, State.initial] at hf
  refine ⟨shape_initial b now cache revisions, fun i f hf => absurd hf (hnone i f), fun n => ?_,
    fun i f hf => absurd hf (hnone i f)⟩
  simp only [Shared.runtime, State.initial, List.getElem?_nil, Option.getD_none]
  exact keyed_new

theorem step_memos {l : Label K V} (h : Stepped b s l t) (hl : OpensKeyed s l)
    (hs : Complete b s) (n : ℕ) : (t.runtime n).Keyed := by
  cases h with
  | @run i e f m hf hm =>
    intro k v hv
    rcases hm.memo_cases hv with hold | ⟨_, hi⟩
    · exact hs.memos n k v hold
    · exact (ownKeys_rules (e := e) hs.memos).installs (hs.keeps i f hf trivial) hi
  | @openRuntime r _ =>
    rcases Nat.lt_or_ge n s.runtimes.length with hn | hn
    · rw [runtime_append_lt (s := s.toShared) (r := r) rfl hn]
      exact hs.memos n
    · rcases (runtime_append_ge (s := s.toShared) (t := { s.toShared with
          runtimes := s.runtimes ++ [r] }) rfl hn).2 with ⟨hr, _⟩ | hr
      · rw [hr]
        exact hl r rfl
      · rw [hr]
        exact keyed_new
  | _ => exact hs.memos n

theorem step_complete {l : Label K V} (hl : OpensKeyed s l) (hs : Complete b s)
    (h : b.step s l = some t) : Complete b t := by
  have hstep := step_cases h
  refine ⟨hstep.shape hs.shape, step_whole h hs.whole, step_memos hstep hl hs, ?_⟩
  refine hstep.keeps hs.shape hs.keeps ?_ ?_ fun _ _ _ _ _ _ => trivial
  · intro i e f m _ _ _ _
    exact ownKeys_rules hs.memos
  · intro i e f m g _ _ _ hcov
    exact absurd trivial hcov

/-! ## Every run -/

/-- What a finished `_resolve_many` returns. -/
theorem Complete.many (hs : Complete b s) {keys : List K}
    (hc : s.Called i c (.many keys)) {values : Dict K (SnapshotValue K V)}
    {errors : Dict K (Error K)} (h : s.manyOutcome i = some (.ok (values, errors))) :
    (∀ k ∈ values.keys, k ∉ errors.keys) ∧
      (∀ k, k ∈ keys ↔ k ∈ values.keys ∨ k ∈ errors.keys) ∧
      ∀ k v, values.get? k = some v → v.key = k := by
  obtain ⟨c', keys', l, hf, rfl, rfl⟩ := manyOutcome_ok h
  obtain ⟨_, hcall⟩ := hc.unique ⟨_, hf, rfl, rfl⟩
  rw [Body.call, Call.many.injEq] at hcall
  subst hcall
  obtain ⟨hn, hwhole, _⟩ := hs.whole i _ hf
  have hperm := hwhole nofun
  rw [ManyPhase.undecided, List.append_nil] at hperm
  refine ⟨?_, fun k => ?_, fun k v hv => (hs.keeps i _ hf trivial).1.values k v hv⟩
  · intro k hv he
    exact (List.nodup_append.mp (hperm.nodup_iff.mpr hn)).2.2 k hv k he rfl
  · rw [← hperm.mem_iff, List.mem_append]

/-- What a finished `_resolve_owned_keys` returns. -/
theorem Complete.owned (hs : Complete b s) {keys : List K}
    (hc : s.Called i c (.owned keys)) {resolved : Dict K (ResolutionResult K V)}
    (h : s.ownedOutcome i = some (.ok resolved)) :
    (∀ k, k ∈ keys ↔ k ∈ resolved.keys) ∧
      ∀ k v, resolved.get? k = some (.ok v) → v.key = k := by
  obtain ⟨c', keys', l, hf, rfl⟩ := ownedOutcome_ok h
  obtain ⟨_, hcall⟩ := hc.unique ⟨_, hf, rfl, rfl⟩
  rw [Body.call, Call.owned.injEq] at hcall
  subst hcall
  have hwhole := (hs.whole i _ hf).2.1
  refine ⟨fun k => ⟨fun hk => ?_, fun hk => hwhole.owned k (.inl hk)⟩, fun k v hv => ?_⟩
  · have hsettled := hwhole.settled nofun k hk
    simpa only [OwnedPhase.unsettled, List.not_mem_nil, or_false] using hsettled
  · exact (hs.keeps i _ hf trivial).1.resolved k _ hv

/-- In every run whose sessions start with keyed memos: a resolution that returns has decided every
requested key once, as a value of that key or as an error; a source loop that returns has one result
for each owned key, so no flight is refused for an omitted one; and no lookup in between misses. -/
theorem resolution_complete (b : Builder K V) {now : ℚ} {cache : AsyncMemoryCache K V}
    {revisions : List (Dict K ℕ)} {ls : List (Label K V)}
    (h : RunOf b.step OpensKeyed (State.initial now cache revisions) ls t) :
    (∀ i c requested values errors, t.Called i c (.many (Dict.fromKeys requested)) →
      t.manyOutcome i = some (.ok (values, errors)) →
        (∀ k ∈ values.keys, k ∉ errors.keys) ∧
        (∀ k, k ∈ requested ↔ k ∈ values.keys ∨ k ∈ errors.keys) ∧
        ∀ k v, values.get? k = some v → v.key = k) ∧
    (∀ i c keys resolved, t.Called i c (.owned keys) → t.ownedOutcome i = some (.ok resolved) →
        (∀ k, k ∈ keys ↔ k ∈ resolved.keys) ∧
        ∀ k v, resolved.get? k = some (.ok v) → v.key = k) ∧
    (∀ i c owned settled child outcome,
      t.frame? i = some ⟨c, .produce owned settled (.running child)⟩ →
      t.ownedOutcome child = some outcome → produceOutcome owned outcome = outcome) ∧
    ∀ i f, t.frame? i = some f → f.body.misses = false := by
  have ht : Complete b t := h.invariant (Complete b)
    (fun _ _ _ hl hs hstep => step_complete hl hs hstep) (complete_initial b now cache revisions)
  refine ⟨?_, fun i c keys resolved hc ho => ht.owned hc ho, ?_, fun i f hf => ht.whole.misses hf⟩
  · intro i c requested values errors hc ho
    obtain ⟨hapart, hcover, hkeys⟩ := ht.many hc ho
    refine ⟨hapart, fun k => ?_, hkeys⟩
    rw [← hcover k, Dict.mem_fromKeys]
  · intro i c owned settled child outcome hf ho
    cases outcome with
    | error err => rfl
    | ok resolved =>
      have hcalled := ((ht.shape.frames i _ hf).body).2.2
      have hall := (ht.owned hcalled ho).1
      rw [produceOutcome, if_pos]
      exact List.all_eq_true.mpr fun k hk => decide_eq_true ((hall k).mp hk)

end

/-! ## A value, an error and a repeated key -/

/-- Key 2 is derived from key 0. -/
def pairBuilder : Builder ℕ ℕ :=
  .layered (fun k => if k = 2 then [0] else []) (.blocking 10 20 ten_nonneg ten_le_twenty) id

/-- A session asks for key 2 twice and for key 1, whose source fails. -/
def mixedCall : List (Label ℕ ℕ) :=
  [.openRuntime .new, .call 0 none [2, 1, 2]] ++
    turns [(0, 7), (1, 1), (2, 2), (3, 1), (4, 6), (5, 1), (6, 3)] ++
    [.run 7 (.answer (Dict.empty.set 0 ⟨7, none⟩))] ++ turns [(6, 8), (5, 2), (4, 3), (3, 2)] ++
    [.run 3 (.answer (Dict.empty.set 2 ⟨9, none⟩))] ++ turns [(2, 8)] ++
    [.run 8 (.raise (.other "ValueError" (by decide)))] ++ turns [(2, 6), (1, 3), (0, 4)]

/-- The arguments of a finished `_resolve_many` and the keys it decided. -/
def State.decided (s : State ℕ ℕ) (i : ℕ) : Option (List ℕ × List ℕ × List ℕ) :=
  match s.frame? i with
  | some ⟨_, .resolveMany keys l .done⟩ => some (keys, l.values.keys, l.errors.keys)
  | _ => none

theorem decided_some {s : State ℕ ℕ} {i : ℕ} {keys valueKeys errorKeys : List ℕ}
    (h : s.decided i = some (keys, valueKeys, errorKeys)) : ∃ c values errors,
      s.Called i c (.many keys) ∧ s.manyOutcome i = some (.ok (values, errors)) ∧
        values.keys = valueKeys ∧ errors.keys = errorKeys := by
  unfold State.decided at h
  split at h
  · rename_i c keys' l hf
    simp only [Option.some.injEq, Prod.mk.injEq] at h
    obtain ⟨rfl, hvalues, herrors⟩ := h
    refine ⟨c, l.values, l.errors, ⟨_, hf, rfl, rfl⟩, ?_, hvalues, herrors⟩
    unfold State.manyOutcome
    rw [hf]
  · cases h

theorem mixedCall_keyed : ∀ l ∈ mixedCall, OpensKeyed coldState l := by
  intro l hl r hr k v hv
  have hempty : ∀ l ∈ mixedCall, ∀ r, l = .openRuntime r → r.memo.keys = [] := by
    simp [mixedCall, turns, ResolutionRuntime.new]
  have hmem := Dict.mem_keys_of_get? hv
  rw [hempty l hl r hr] at hmem
  cases hmem

theorem resolution_complete_mixed : ∃ (t : State ℕ ℕ) (values : Dict ℕ (SnapshotValue ℕ ℕ))
    (errors : Dict ℕ (Error ℕ)), RunOf pairBuilder.step OpensKeyed coldState mixedCall t ∧
      t.manyOutcome 0 = some (.ok (values, errors)) ∧ values.keys = [2] ∧ errors.keys = [1] ∧
      (∀ k ∈ values.keys, k ∉ errors.keys) ∧
      (∀ k, k ∈ [2, 1, 2] ↔ k ∈ values.keys ∨ k ∈ errors.keys) ∧
      ∀ k v, values.get? k = some v → v.key = k := by
  have hrun : (exec pairBuilder.step coldState mixedCall).map (fun t => t.decided 0) =
      some (some (Dict.fromKeys [2, 1, 2], [2], [1])) := by
    decide +kernel
  obtain ⟨t, ht, hdecided⟩ := Option.map_eq_some_iff.mp hrun
  obtain ⟨c, values, errors, hcalled, houtcome, hvalues, herrors⟩ := decided_some hdecided
  have hok : RunOf pairBuilder.step OpensKeyed coldState mixedCall t :=
    RunOf.of_labels (exec_run ht) mixedCall_keyed
  have hcomplete := resolution_complete pairBuilder hok
  exact ⟨t, values, errors, hok, houtcome, hvalues, herrors,
    hcomplete.1 0 c [2, 1, 2] values errors hcalled houtcome⟩

end Coalestra
