import Coalestra.Orchestration.Moves

/-! # The shape of reachable states

Facts about frames that do not depend on values: whom a frame waits for, which producer owns a
future, that no requested key is lost on the way, and that every unit of work belongs to a source
of the builder that supports its keys. -/

namespace Coalestra
set_option autoImplicit false
set_option maxHeartbeats 250000

section
variable {K V : Type} [DecidableEq K]

/-! ## Calls -/

/-- The function a frame runs and its arguments, which never change. -/
inductive Call (K : Type)
  | many (keys : List K)
  | owned (keys : List K)
  | work (source : Source K) (keys : List K)
  | produce (owned : List K)
  | refresh (key : K)

def Body.call : Body K V → Call K
  | .resolveMany keys _ _ => .many keys
  | .resolveOwned keys _ _ => .owned keys
  | .work source keys _ => .work source keys
  | .produce owned _ _ => .produce owned
  | .refresh key _ => .refresh key

/-- Frame `i` runs `call` in scope `c`. -/
def State.Called (s : State K V) (i : ℕ) (c : Scope K) (call : Call K) : Prop :=
  ∃ f, s.frame? i = some f ∧ f.scope = c ∧ f.body.call = call

theorem Move.call {b : Builder K V} {s : State K V} {c : Scope K} {body : Body K V}
    {e : Event K V} {m : Step K V} (h : Move b s c body e m) : m.body.call = body.call := by
  cases h with
  | many h => cases h <;> rfl
  | owned h => cases h <;> rfl
  | work h => cases h <;> rfl
  | produce h => cases h <;> rfl
  | refresh h => cases h <;> rfl

theorem Stepped.called {b : Builder K V} {s t : State K V} {l : Label K V} (h : Stepped b s l t)
    {i : ℕ} {c : Scope K} {call : Call K} (hc : s.Called i c call) : t.Called i c call := by
  obtain ⟨g, hg, hscope, hcall⟩ := hc
  cases h with
  | @run j e f m hf hm =>
    by_cases hij : i = j
    · subst hij
      rw [hf, Option.some.injEq] at hg
      subst hg
      exact ⟨_, frame?_apply_self m hf, hscope, by rw [← hcall]; exact hm.call⟩
    · exact ⟨g, frame?_apply_other m hf hg hij, hscope, hcall⟩
  | tick => exact ⟨g, hg, hscope, hcall⟩
  | openRuntime => exact ⟨g, hg, hscope, hcall⟩
  | call => exact ⟨g, frame?_append hg, hscope, hcall⟩
  | external => exact ⟨g, hg, hscope, hcall⟩

/-- Calls last as long as the run. -/
theorem RunOf.called {b : Builder K V} {ok : State K V → Label K V → Prop} {s t : State K V}
    {ls : List (Label K V)} (h : RunOf b.step ok s ls t) {i : ℕ} {c : Scope K} {call : Call K}
    (hc : s.Called i c call) : t.Called i c call :=
  h.invariant (fun u => u.Called i c call) (fun _ _ _ _ hu hstep => (step_cases hstep).called hu) hc

/-- The frame of a session call. -/
theorem called_call {b : Builder K V} {s t : State K V} {runtime : ℕ} {deadline : Option ℚ}
    {keys : List K} (h : b.step s (.call runtime deadline keys) = some t) :
    runtime < s.runtimes.length ∧ t.Called s.frames.length ⟨deadline, runtime, [], [], none⟩
      (.many (Dict.fromKeys keys)) := by
  cases step_cases h with
  | call hr =>
    refine ⟨hr, callFrame runtime deadline keys, ?_, rfl, rfl⟩
    simp [State.frame?]

theorem called_spawn {s : State K V} {i : ℕ} {f g : Frame K V} {m : Step K V}
    (hf : s.frame? i = some f) (hg : m.spawn = some g) :
    (s.apply i f m).Called s.frames.length g.scope g.body.call :=
  ⟨g, by rw [frame?_apply_spawn m hf, hg], rfl, rfl⟩

theorem State.Called.lt {s : State K V} {i : ℕ} {c : Scope K} {call : Call K}
    (h : s.Called i c call) : i < s.frames.length := by
  obtain ⟨f, hf, _⟩ := h
  exact lt_of_frame? hf

/-! ## The shape of one frame -/

/-- The producer that runs a frame owns only keys the frame resolves itself. -/
def ScopeShape (called : ℕ → Scope K → Call K → Prop) (c : Scope K) : Prop :=
  ∀ p, c.task = some p → ∃ cp owned, called p cp (.produce owned) ∧ ∀ k ∈ owned, k ∈ c.localOwned

/-- `p` is the producer of the future of `key`. -/
def FutureShape (called : ℕ → Scope K → Call K → Prop) (key : K) (p : ℕ) : Prop :=
  ∃ cp owned, called p cp (.produce owned) ∧ key ∈ owned ∧ cp.task = some p

/-- Every key has one future, and its producer owns the key. -/
def FuturesShape (called : ℕ → Scope K → Call K → Prop) (futures : List (K × ℕ)) : Prop :=
  ∀ e ∈ futures, FutureShape called e.1 e.2 ∧ Dict.find futures e.1 = some e.2

def ManyShape (called : ℕ → Scope K → Call K → Prop) (i : ℕ) (c : Scope K) (keys : List K)
    (l : ManyLocals K V) : ManyPhase K V → Prop
  | .start => True
  | .reading cacheKeys _ => ∀ k ∈ keys, k ∈ l.values.keys ∨ k ∈ l.pending ∨ k ∈ cacheKeys
  | .isolating lookups => ∀ k ∈ keys, k ∈ l.values.keys ∨ k ∈ l.pending ∨ k ∈ lookups.map Prod.fst
  | .serving lookups => ∀ k ∈ keys, k ∈ l.values.keys ∨ k ∈ l.pending ∨ k ∈ lookups.map Prod.fst
  | .copying key _ rest => ∀ k ∈ keys,
      k ∈ l.values.keys ∨ k ∈ l.pending ∨ k = key ∨ k ∈ rest.map Prod.fst
  | .resolving child shared => (∀ k ∈ keys, k ∈ l.values.keys ∨ k ∈ l.pending) ∧ i < child ∧
      (∃ owned, called child { c with localOwned := c.localOwned ++ owned } (.owned owned)) ∧
      ∀ k ∈ shared, k ∉ c.localOwned
  | .reserving shared => (∀ k ∈ keys, k ∈ l.values.keys ∨ k ∈ l.pending) ∧
      ∀ k ∈ shared, k ∉ c.localOwned
  | .joining futures => (∀ k ∈ keys, k ∈ l.values.keys ∨ k ∈ l.pending) ∧
      FuturesShape called futures ∧ ∀ e ∈ futures, e.1 ∉ c.localOwned
  | .collecting rest => ∀ k ∈ keys, k ∈ l.values.keys ∨ k ∈ l.errors.keys ∨ k ∈ rest
  | .fallback key _ rest => ∀ k ∈ keys,
      k ∈ l.values.keys ∨ k ∈ l.errors.keys ∨ k = key ∨ k ∈ rest
  | .done => ∀ k ∈ keys, k ∈ l.values.keys ∨ k ∈ l.errors.keys
  | .raised _ => True

/-- The sources still to visit belong to the builder. -/
def SourcesShape (b : Builder K V) (sources : List (Source K)) : Prop :=
  ∀ source ∈ sources, source ∈ b.sources

def OwnedShape (b : Builder K V) (called : ℕ → Scope K → Call K → Prop) (i : ℕ) (c : Scope K)
    (keys : List K) : OwnedPhase K V → Prop
  | .visiting sources | .writing sources _ | .written sources _ | .superseding sources _
  | .copyingWinner sources _ _ _ => SourcesShape b sources
  | .attempting source sources chosen queue children =>
      SourcesShape b (source :: sources) ∧
      (∀ k ∈ chosen, k ∈ keys ∧ source.supports k = .ok true) ∧
      (∀ item ∈ queue, (source.kind = .derived → ∃ key, item = [key]) ∧ ∀ k ∈ item, k ∈ chosen) ∧
      ∀ child ∈ children, i < child ∧ ∃ ks, called child c (.work source ks)
  | .harvesting source sources _ rest _ =>
      SourcesShape b (source :: sources) ∧ ∀ k ∈ rest, k ∈ keys ∧ source.supports k = .ok true
  | .finishing _ _ | .staleWriting _ | .staleWritten | .done | .raised _ => True

def WorkShape (called : ℕ → Scope K → Call K → Prop) (i : ℕ) (c : Scope K) (source : Source K)
    (keys : List K) : WorkPhase K V → Prop
  | .start => source.kind = .derived
  | .resolving child => source.kind = .derived ∧ i < child ∧ ∃ key declared,
      keys = [key] ∧ source.dependencies key = .ok declared ∧
      called child { c with ancestry := c.ancestry ++ [key] } (.many (Dict.fromKeys declared))
  | .isolating _ | .calling _ | .done _ => True

def ProduceShape (called : ℕ → Scope K → Call K → Prop) (i : ℕ) (c : Scope K) (owned : List K)
    (settled : Dict K (Except (Error K) (ResolutionResult K V))) : ProducePhase K V → Prop
  | .start => True
  | .running child => i < child ∧ called child c (.owned owned)
  | .completing rest _ => ∀ k ∈ owned, k ∈ settled.keys ∨ k ∈ rest
  | .done => ∀ k ∈ owned, k ∈ settled.keys

def RefreshShape (called : ℕ → Scope K → Call K → Prop) : RefreshPhase K → Prop
  | .reserving | .done => True
  | .joining futures => FuturesShape called futures

def BodyShape (b : Builder K V) (called : ℕ → Scope K → Call K → Prop) (i : ℕ) (c : Scope K) :
    Body K V → Prop
  | .resolveMany keys l p => ManyShape called i c keys l p
  | .resolveOwned keys l p => (∀ k ∈ l.unresolved, k ∈ keys) ∧ OwnedShape b called i c keys p
  | .work source keys p => source ∈ b.sources ∧ (∀ k ∈ keys, source.supports k = .ok true) ∧
      (source.kind = .derived → ∃ key, keys = [key]) ∧ WorkShape called i c source keys p
  | .produce owned settled p => c.task = some i ∧ ProduceShape called i c owned settled p
  | .refresh _ p => c.task = none ∧ RefreshShape called p

structure FrameShape (b : Builder K V) (called : ℕ → Scope K → Call K → Prop) (i : ℕ)
    (f : Frame K V) : Prop where
  scope : ScopeShape called f.scope
  body : BodyShape b called i f.scope f.body

/-- What holds of every frame and of the registry of flights. -/
structure Shape (b : Builder K V) (s : State K V) : Prop where
  frames : ∀ i f, s.frame? i = some f → FrameShape b s.Called i f
  tasks : ∀ k p, s.tasks.get? k = some p → FutureShape s.Called k p

/-! ## More frames, same shape -/

section
variable {called called' : ℕ → Scope K → Call K → Prop}

omit [DecidableEq K] in
theorem ScopeShape.mono (h : ∀ i c k, called i c k → called' i c k) {c : Scope K}
    (hs : ScopeShape called c) : ScopeShape called' c := by
  intro p hp
  obtain ⟨cp, owned, hc, ho⟩ := hs p hp
  exact ⟨cp, owned, h _ _ _ hc, ho⟩

omit [DecidableEq K] in
theorem FutureShape.mono (h : ∀ i c k, called i c k → called' i c k) {key : K} {p : ℕ}
    (hs : FutureShape called key p) : FutureShape called' key p := by
  obtain ⟨cp, owned, hc, ho⟩ := hs
  exact ⟨cp, owned, h _ _ _ hc, ho⟩

theorem FuturesShape.mono (h : ∀ i c k, called i c k → called' i c k) {futures : List (K × ℕ)}
    (hs : FuturesShape called futures) : FuturesShape called' futures :=
  fun e he => ⟨(hs e he).1.mono h, (hs e he).2⟩

theorem ManyShape.mono (h : ∀ i c k, called i c k → called' i c k) {i : ℕ} {c : Scope K}
    {keys : List K} {l : ManyLocals K V} {p : ManyPhase K V}
    (hs : ManyShape called i c keys l p) : ManyShape called' i c keys l p := by
  cases p with
  | resolving child shared =>
    obtain ⟨hk, hlt, ⟨owned, hc⟩, hsh⟩ := hs
    exact ⟨hk, hlt, ⟨owned, h _ _ _ hc⟩, hsh⟩
  | joining futures =>
    exact ⟨hs.1, hs.2.1.mono h, hs.2.2⟩
  | _ => exact hs

omit [DecidableEq K] in
theorem OwnedShape.mono {b : Builder K V} (h : ∀ i c k, called i c k → called' i c k) {i : ℕ}
    {c : Scope K} {keys : List K} {p : OwnedPhase K V} (hs : OwnedShape b called i c keys p) :
    OwnedShape b called' i c keys p := by
  cases p with
  | attempting source sources chosen queue children =>
    refine ⟨hs.1, hs.2.1, hs.2.2.1, ?_⟩
    intro child hchild
    obtain ⟨hlt, ks, hc⟩ := hs.2.2.2 child hchild
    exact ⟨hlt, ks, h _ _ _ hc⟩
  | _ => exact hs

theorem WorkShape.mono (h : ∀ i c k, called i c k → called' i c k) {i : ℕ} {c : Scope K}
    {source : Source K} {keys : List K} {p : WorkPhase K V}
    (hs : WorkShape called i c source keys p) : WorkShape called' i c source keys p := by
  cases p with
  | resolving child =>
    obtain ⟨hd, hlt, key, declared, hk, hdep, hc⟩ := hs
    exact ⟨hd, hlt, key, declared, hk, hdep, h _ _ _ hc⟩
  | _ => exact hs

theorem FrameShape.mono {b : Builder K V} (h : ∀ i c k, called i c k → called' i c k) {i : ℕ}
    {f : Frame K V} (hs : FrameShape b called i f) : FrameShape b called' i f := by
  obtain ⟨c, body⟩ := f
  refine ⟨hs.scope.mono h, ?_⟩
  have hb := hs.body
  cases body with
  | resolveMany keys l p => exact ManyShape.mono h hb
  | resolveOwned keys l p => exact ⟨hb.1, hb.2.mono h⟩
  | work source keys p => exact ⟨hb.1, hb.2.1, hb.2.2.1, hb.2.2.2.mono h⟩
  | produce owned settled p =>
    refine ⟨hb.1, ?_⟩
    cases p with
    | running child => exact ⟨hb.2.1, h _ _ _ hb.2.2⟩
    | _ => exact hb.2
  | refresh key p =>
    refine ⟨hb.1, ?_⟩
    cases p with
    | joining futures => exact FuturesShape.mono h hb.2
    | _ => exact hb.2

end

/-! ## Data of the moves -/

omit [DecidableEq K] in
theorem unresolved_fail [DecidableEq K] (l : OwnedLocals K V) (key : K) (failure : SourceFailure) :
    (l.fail key failure).unresolved = l.unresolved := rfl

theorem unresolved_consider (source : Source K) (keys : List K) (l : OwnedLocals K V) :
    (Builder.consider source l keys).unresolved = l.unresolved := by
  unfold Builder.consider
  induction keys generalizing l with
  | nil => rfl
  | cons key keys ih =>
    rw [List.foldl_cons, ih]
    split <;> rfl

theorem unresolved_keepStale (b : Builder K V) (l : OwnedLocals K V) (key : K)
    (value : SnapshotValue K V) : (b.keepStale l key value).unresolved = l.unresolved := by
  unfold Builder.keepStale
  split <;> rfl

theorem mem_visit_unresolved {r : ResolutionRuntime K V} {l : OwnedLocals K V} {k : K}
    (h : k ∈ (Builder.visit r l).unresolved) : k ∈ l.unresolved := List.mem_of_mem_filter h

omit [DecidableEq K] in
theorem mem_candidates {source : Source K} {keys : List K} {k : K} :
    k ∈ Builder.candidates source keys ↔ k ∈ keys ∧ source.supports k = .ok true := by
  unfold Builder.candidates
  rw [List.mem_filter]
  cases source.supports k <;> simp

omit [DecidableEq K] in
/-- A unit of work holds candidates only; a derived one holds a single key. -/
theorem mem_items {source : Source K} {keys item : List K} (h : item ∈ source.items keys) :
    (source.kind = .derived → ∃ key, item = [key]) ∧ ∀ k ∈ item, k ∈ keys := by
  constructor
  · intro hd
    simp only [Source.items, hd, List.mem_map] at h
    obtain ⟨key, _, rfl⟩ := h
    exact ⟨key, rfl⟩
  · intro k hk
    rw [← source.flatten_items keys]
    exact List.mem_flatten.mpr ⟨item, h, hk⟩

/-- The producer of a reserved future is registered already, or it is the one just started. -/
theorem reserve_future {s : State K V} {c : Scope K} {keys : List K} {e : K × ℕ}
    (h : e ∈ (s.reserve c keys).1) : (e.1 ∈ keys ∧
      (s.tasks.get? e.1 = some e.2 ∨ s.tasks.get? e.1 = none ∧ e.2 = s.frames.length)) ∧
      Dict.find (s.reserve c keys).1 e.1 = some e.2 := by
  have heq : (s.reserve c keys).1 =
      keys.map fun key => (key, (s.tasks.get? key).getD s.frames.length) := by
    unfold State.reserve
    dsimp only
    split <;> rfl
  rw [heq] at h ⊢
  obtain ⟨key, hkey, rfl⟩ := List.mem_map.mp h
  refine ⟨⟨hkey, ?_⟩, Dict.find_map_graph _ hkey⟩
  cases hk : s.tasks.get? key with
  | none => exact .inr ⟨rfl, rfl⟩
  | some p => exact .inl rfl

/-- The producer a reservation starts owns exactly the keys without a future. -/
theorem reserve_spawn {s : State K V} {c : Scope K} {keys : List K} {k : K} (hk : k ∈ keys)
    (hn : s.tasks.get? k = none) : ∃ owned, k ∈ owned ∧ (∀ j ∈ owned, s.tasks.get? j = none) ∧
      (s.reserve c keys).2.2 = some
        ⟨{ c with localOwned := c.localOwned ++ owned, task := some s.frames.length },
          .produce owned .empty .start⟩ := by
  have hmem : k ∈ keys.filter fun key => (s.tasks.get? key).isNone := by simp [hk, hn]
  have hne : (keys.filter fun key => (s.tasks.get? key).isNone) ≠ [] := List.ne_nil_of_mem hmem
  refine ⟨_, hmem, fun j hj => by simpa using (List.mem_filter.mp hj).2, ?_⟩
  unfold State.reserve
  dsimp only
  rw [if_neg hne]

theorem reserve_spawn_eq {s : State K V} {c : Scope K} {keys : List K} {g : Frame K V}
    (h : (s.reserve c keys).2.2 = some g) : ∃ owned, owned ≠ [] ∧
      (∀ j ∈ owned, j ∈ keys ∧ s.tasks.get? j = none) ∧
      g = ⟨{ c with localOwned := c.localOwned ++ owned, task := some s.frames.length },
        .produce owned .empty .start⟩ := by
  unfold State.reserve at h
  dsimp only at h
  split at h
  · cases h
  · rename_i hne
    cases h
    exact ⟨_, hne, fun j hj => by simpa using List.mem_filter.mp hj, rfl⟩

/-- The registry after a reservation. -/
theorem reserve_tasks {s : State K V} {c : Scope K} {keys : List K} {k : K} {p : ℕ}
    (h : (s.reserve c keys).2.1.tasks.get? k = some p) :
    s.tasks.get? k = some p ∨ k ∈ keys ∧ s.tasks.get? k = none ∧ p = s.frames.length := by
  unfold State.reserve at h
  dsimp only at h
  split at h
  · exact .inl h
  · rw [Dict.get?_foldl_set_const] at h
    split at h
    · rename_i hk
      simp only [Option.some.injEq] at h
      have hm := List.mem_filter.mp hk
      exact .inr ⟨hm.1, by simpa using hm.2, h.symm⟩
    · exact .inl h

/-- A reservation touches nothing but the registry. -/
theorem reserve_shared (s : State K V) (c : Scope K) (keys : List K) :
    (s.reserve c keys).2.1 = { s.toShared with tasks := (s.reserve c keys).2.1.tasks } := by
  unfold State.reserve
  dsimp only
  split <;> rfl

theorem schedule_spawn {s : State K V} {key : K} {wanted : Bool} {g : Frame K V}
    (h : (s.schedule key wanted).2 = some g) :
    g = ⟨⟨none, s.runtimes.length, [], [], none⟩, .refresh key .reserving⟩ := by
  unfold State.schedule at h
  split at h <;> cases h
  rfl

@[simp] theorem schedule_tasks (s : State K V) (key : K) (wanted : Bool) :
    (s.schedule key wanted).1.tasks = s.tasks := by
  unfold State.schedule
  split <;> rfl

/-! ## One move -/

section
variable {b : Builder K V} {s : State K V} {called : ℕ → Scope K → Call K → Prop} {i : ℕ}
  {c : Scope K} {e : Event K V} {m : Step K V}

/-- Joined futures point at the producers that own them. -/
theorem reserve_shape {keys : List K} (hmono : ∀ i c k, s.Called i c k → called i c k)
    (htasks : ∀ k p, s.tasks.get? k = some p → FutureShape s.Called k p)
    (hspawn : ∀ g, (s.reserve c keys).2.2 = some g → called s.frames.length g.scope g.body.call) :
    FuturesShape called (s.reserve c keys).1 := by
  intro e he
  obtain ⟨⟨hk, hp | ⟨hn, hp⟩⟩, hfind⟩ := reserve_future he
  · exact ⟨(htasks _ _ hp).mono hmono, hfind⟩
  · refine ⟨?_, hfind⟩
    obtain ⟨owned, hmem, _, hg⟩ := reserve_spawn (c := c) hk hn
    rw [hp]
    exact ⟨_, owned, hspawn _ hg, hmem, rfl⟩

theorem ManyMove.shape {keys : List K} {l : ManyLocals K V} {p : ManyPhase K V}
    (hm : ManyMove b s c keys l p e m) (hi : i < s.frames.length)
    (hmono : ∀ i c k, s.Called i c k → called i c k)
    (htasks : ∀ k p, s.tasks.get? k = some p → FutureShape s.Called k p)
    (hspawn : ∀ g, m.spawn = some g → called s.frames.length g.scope g.body.call)
    (h : ManyShape s.Called i c keys l p) : BodyShape b called i c m.body := by
  cases hm with
  | start =>
    have hcover : ∀ k ∈ keys,
        k ∈ (Dict.comprehend keys (s.runtime c.runtime).pinned).keys ∨
        k ∈ keys.filter (s.runtime c.runtime).requiresRefresh ∨
        k ∈ cacheKeysOf (s.runtime c.runtime) keys := by
      intro k hk
      simp only [Dict.mem_keys_comprehend, cacheKeysOf, ResolutionRuntime.pinned, List.mem_filter, hk,
        true_and]
      cases (s.runtime c.runtime).requiresRefresh k <;>
        cases (s.runtime c.runtime).memo.get? k <;> simp
    show ManyShape called i c keys _ (if _ then _ else _)
    split
    · rename_i hnil
      intro k hk
      rcases hcover k hk with h1 | h1 | h1
      · exact .inl h1
      · exact .inr (.inl h1)
      · rw [hnil] at h1
        cases h1
    · exact hcover
  | @read cacheKeys now =>
    intro k hk
    rcases h k hk with h1 | h1 | h1
    · exact .inl h1
    · exact .inr (.inl h1)
    · refine .inr (.inr ?_)
      rw [AsyncMemoryCache.getMany, AsyncMemoryCache.getManyLocked_keys, Dict.mem_fromKeys]
      exact h1
  | isolate =>
    intro k hk
    have hmap := h k hk
    simpa [List.map_map, Function.comp_def] using hmap
  | served hp =>
    intro k hk
    have hk' := h k hk
    simp only [hp, List.map_nil, List.not_mem_nil, or_false] at hk'
    exact .inl hk'
  | share =>
    refine ⟨fun k hk => by simpa using h k hk, ?_⟩
    intro k hk
    have hn := (List.mem_filter.mp hk).2
    simp [ownsDirectly] at hn
    exact hn.1
  | delegate =>
    refine ⟨fun k hk => by simpa using h k hk, hi, ⟨_, hspawn _ rfl⟩, ?_⟩
    intro k hk
    have hn := (List.mem_filter.mp hk).2
    simp [ownsDirectly] at hn
    exact hn.1
  | hit =>
    intro k hk
    have hk' := h k hk
    simpa using hk'
  | miss =>
    intro k hk
    have hk' := h k hk
    simp only [List.map_cons, List.mem_cons] at hk'
    simp only [List.mem_append, List.mem_singleton]
    tauto
  | missStale =>
    intro k hk
    have hk' := h k hk
    simp only [List.map_cons, List.mem_cons] at hk'
    simp only [List.mem_append, List.mem_singleton]
    tauto
  | install =>
    intro k hk
    have hk' := h k hk
    simp only [Dict.mem_keys_set]
    tauto
  | @delegated child shared resolved ho =>
    show ManyShape called i c keys _ (if _ then _ else _)
    split
    · exact fun k hk => (h.1 k hk).imp_right .inr
    · exact ⟨h.1, h.2.2.2⟩
  | delegateRaised => trivial
  | reserve =>
    refine ⟨h.1, reserve_shape hmono htasks hspawn, ?_⟩
    exact fun e he => h.2 _ (reserve_future he).1.1
  | joined => exact fun k hk => (h.1 k hk).imp_right .inr
  | joinRaised => trivial
  | collected => exact fun k hk => by simpa using h k hk
  | collectMissing => trivial
  | collectValue =>
    intro k hk
    have hk' := h k hk
    simp only [List.mem_cons] at hk'
    simp only [Dict.mem_keys_set]
    tauto
  | collectError =>
    intro k hk
    have hk' := h k hk
    simp only [List.mem_cons] at hk'
    simp only [Dict.mem_keys_set]
    tauto
  | collectStale => exact fun k hk => by simpa using h k hk
  | fallBack =>
    intro k hk
    have hk' := h k hk
    simp only [Dict.mem_keys_set]
    tauto
  | interrupt => trivial

theorem OwnedMove.shape {keys : List K} {l : OwnedLocals K V} {p : OwnedPhase K V}
    (hm : OwnedMove b s c keys l p e m) (hi : i < s.frames.length)
    (hmono : ∀ i c k, s.Called i c k → called i c k)
    (hspawn : ∀ g, m.spawn = some g → called s.frames.length g.scope g.body.call)
    (hu : ∀ k ∈ l.unresolved, k ∈ keys) (h : OwnedShape b s.Called i c keys p) :
    BodyShape b called i c m.body := by
  have hvisit : ∀ k ∈ (Builder.visit (s.runtime c.runtime) l).unresolved, k ∈ keys :=
    fun k hk => hu k (mem_visit_unresolved hk)
  have hsettle : ∀ k ∈ l.settle.unresolved, k ∈ keys :=
    fun k hk => hu k (List.mem_of_mem_filter hk)
  cases hm with
  | exhausted => exact ⟨hu, trivial⟩
  | settled => exact ⟨hvisit, trivial⟩
  | skip hl =>
    subst hl
    refine ⟨?_, fun x hx => h x (List.mem_cons_of_mem _ hx)⟩
    rw [unresolved_consider]
    exact hvisit
  | attempt hl hc =>
    subst hl hc
    refine ⟨by rw [unresolved_consider]; exact hvisit, h, ?_, fun item hitem => mem_items hitem,
      by simp⟩
    intro k hk
    have hcand := mem_candidates.mp hk
    exact ⟨hvisit k (List.mem_of_mem_filter hcand.1), hcand.2⟩
  | dispatch =>
    refine ⟨hu, h.1, h.2.1, fun x hx => h.2.2.1 x (List.mem_cons_of_mem _ hx), ?_⟩
    intro child hchild
    rcases List.mem_append.mp hchild with hchild | hchild
    · obtain ⟨hlt, ks, hc⟩ := h.2.2.2 child hchild
      exact ⟨hlt, ks, hmono _ _ _ hc⟩
    · rw [List.mem_singleton] at hchild
      subst hchild
      exact ⟨hi, _, hspawn _ rfl⟩
  | gather => exact ⟨hu, h.1, h.2.1⟩
  | harvestMissing => exact ⟨hu, trivial⟩
  | refuse => exact ⟨hu, h.1, fun k hk => h.2 k (List.mem_cons_of_mem _ hk)⟩
  | keep =>
    refine ⟨?_, h.1, fun k hk => h.2 k (List.mem_cons_of_mem _ hk)⟩
    rw [unresolved_fail, unresolved_keepStale]
    exact hu
  | accept => exact ⟨hu, h.1, fun k hk => h.2 k (List.mem_cons_of_mem _ hk)⟩
  | publish => exact ⟨hu, fun x hx => h.1 x (List.mem_cons_of_mem _ hx)⟩
  | harvested => exact ⟨hsettle, fun x hx => h.1 x (List.mem_cons_of_mem _ hx)⟩
  | write => exact ⟨hu, h⟩
  | wrote => exact ⟨hu, h⟩
  | superseded => exact ⟨hsettle, h⟩
  | supersede => exact ⟨hu, h⟩
  | installWinner => exact ⟨hu, h⟩
  | finishStale => exact ⟨hu, trivial⟩
  | finishError => exact ⟨hu, trivial⟩
  | publishStale => exact ⟨hu, trivial⟩
  | finished => exact ⟨hu, trivial⟩
  | writeStale => exact ⟨hu, trivial⟩
  | wroteStale => exact ⟨hu, trivial⟩
  | interrupt => exact ⟨hu, trivial⟩

theorem WorkMove.shape {source : Source K} {keys : List K} {p : WorkPhase K V}
    (hm : WorkMove b s c source keys p e m) (hi : i < s.frames.length)
    (hspawn : ∀ g, m.spawn = some g → called s.frames.length g.scope g.body.call)
    (h : BodyShape b s.Called i c (.work source keys p)) : BodyShape b called i c m.body := by
  obtain ⟨hs, hk, hd, h⟩ := h
  cases hm with
  | @depend key rest declared hkey hdep hc =>
    refine ⟨hs, hk, hd, h, hi, key, declared, ?_, hdep, hspawn _ rfl⟩
    obtain ⟨only, honly⟩ := hd h
    rw [honly] at hkey ⊢
    simp only [List.cons.injEq] at hkey
    rw [hkey.1]
  | _ => exact ⟨hs, hk, hd, trivial⟩

theorem ProduceMove.shape {owned : List K}
    {settled : Dict K (Except (Error K) (ResolutionResult K V))} {p : ProducePhase K V}
    (hm : ProduceMove b s c owned settled p e m) (hi : i < s.frames.length)
    (hspawn : ∀ g, m.spawn = some g → called s.frames.length g.scope g.body.call)
    (h : BodyShape b s.Called i c (.produce owned settled p)) : BodyShape b called i c m.body := by
  obtain ⟨ht, h⟩ := h
  cases hm with
  | start => exact ⟨ht, hi, hspawn _ rfl⟩
  | produced => exact ⟨ht, fun k hk => .inr hk⟩
  | @complete key rest outcome =>
    refine ⟨ht, fun k hk => ?_⟩
    have hk' := h k hk
    simp only [List.mem_cons] at hk'
    simp only [Dict.mem_keys_set]
    tauto
  | completed => exact ⟨ht, fun k hk => by simpa using h k hk⟩

theorem RefreshMove.shape {key : K} {p : RefreshPhase K} (hm : RefreshMove s c key p e m)
    (hmono : ∀ i c k, s.Called i c k → called i c k)
    (htasks : ∀ k p, s.tasks.get? k = some p → FutureShape s.Called k p)
    (hspawn : ∀ g, m.spawn = some g → called s.frames.length g.scope g.body.call)
    (h : c.task = none) : BodyShape b called i c m.body := by
  cases hm with
  | reserve => exact ⟨h, reserve_shape hmono htasks hspawn⟩
  | joined => exact ⟨h, trivial⟩
  | joinRaised => exact ⟨h, trivial⟩

/-- The shape of a started frame; it inherits the producer of the frame that starts it. -/
theorem Move.spawn_shape {body : Body K V} (hm : Move b s c body e m)
    (hmono : ∀ i c k, s.Called i c k → called i c k)
    (hspawn : ∀ g, m.spawn = some g → called s.frames.length g.scope g.body.call)
    (hc : ScopeShape s.Called c) (h : BodyShape b s.Called i c body) :
    ∀ g, m.spawn = some g → FrameShape b called s.frames.length g := by
  intro g hg
  have hcalled := hspawn g hg
  -- A producer runs in its own task, every other started frame in the task of its starter.
  have hproduce : ∀ keys, (s.reserve c keys).2.2 = some g → FrameShape b called s.frames.length g := by
    intro keys hr
    obtain ⟨owned, _, _, rfl⟩ := reserve_spawn_eq hr
    refine ⟨?_, rfl, trivial⟩
    intro p hp
    simp only [Option.some.injEq] at hp
    subst hp
    exact ⟨_, owned, hcalled, fun k hk => List.mem_append_right _ hk⟩
  cases hm with
  | many hm =>
    cases hm with
    | delegate =>
      cases hg
      refine ⟨?_, fun k hk => hk, fun x hx => hx⟩
      intro p hp
      obtain ⟨cp, owned, hcp, ho⟩ := hc p hp
      exact ⟨cp, owned, hmono _ _ _ hcp, fun k hk => List.mem_append_left _ (ho k hk)⟩
    | hit =>
      rw [schedule_spawn hg]
      exact ⟨fun p hp => by simp at hp, rfl, trivial⟩
    | reserve => exact hproduce _ hg
    | _ => cases hg
  | owned hm =>
    cases hm with
    | @dispatch source sources chosen item queue children =>
      cases hg
      obtain ⟨_, hs, hchosen, hqueue, _⟩ := h
      have hitem := hqueue item List.mem_cons_self
      refine ⟨hc.mono hmono, hs source List.mem_cons_self,
        fun k hk => (hchosen k (hitem.2 k hk)).2, hitem.1, ?_⟩
      show WorkShape _ _ _ _ _ (if _ then _ else _)
      split
      · assumption
      · trivial
    | _ => cases hg
  | work hm =>
    cases hm with
    | depend =>
      cases hg
      exact ⟨hc.mono hmono, trivial⟩
    | _ => cases hg
  | produce hm =>
    cases hm with
    | start =>
      cases hg
      exact ⟨hc.mono hmono, fun k hk => hk, fun x hx => hx⟩
    | _ => cases hg
  | refresh hm =>
    cases hm with
    | reserve => exact hproduce _ hg
    | _ => cases hg

/-- The registry after a move. -/
theorem Move.tasks {body : Body K V} (hm : Move b s c body e m)
    (hmono : ∀ i c k, s.Called i c k → called i c k)
    (htasks : ∀ k p, s.tasks.get? k = some p → FutureShape s.Called k p)
    (hspawn : ∀ g, m.spawn = some g → called s.frames.length g.scope g.body.call) :
    ∀ k p, m.shared.tasks.get? k = some p → FutureShape called k p := by
  intro k p hk
  have hkeep : s.tasks.get? k = some p → FutureShape called k p :=
    fun hk => (htasks k p hk).mono hmono
  have hreserve : ∀ keys, m.spawn = (s.reserve c keys).2.2 →
      (s.reserve c keys).2.1.tasks.get? k = some p → FutureShape called k p := by
    intro keys hsp hk
    rcases reserve_tasks hk with hk | ⟨hmem, hn, rfl⟩
    · exact hkeep hk
    · obtain ⟨owned, hmem, _, hg⟩ := reserve_spawn (c := c) hmem hn
      exact ⟨_, owned, hspawn _ (hsp.trans hg), hmem, rfl⟩
  cases hm with
  | many hm =>
    cases hm with
    | hit => exact hkeep (by simpa using hk)
    | reserve => exact hreserve _ rfl hk
    | _ => exact hkeep hk
  | owned hm => cases hm <;> exact hkeep hk
  | work hm => cases hm <;> exact hkeep hk
  | produce hm =>
    cases hm with
    | @complete key rest outcome =>
      rw [Dict.get?_erase] at hk
      split at hk
      · cases hk
      · exact hkeep hk
    | _ => exact hkeep hk
  | refresh hm =>
    cases hm with
    | reserve => exact hreserve _ rfl hk
    | _ => exact hkeep hk

end

/-! ## Runs -/

theorem Stepped.shape {b : Builder K V} {s t : State K V} {l : Label K V} (h : Stepped b s l t)
    (hs : Shape b s) : Shape b t := by
  have hmono : ∀ i c k, s.Called i c k → t.Called i c k := fun _ _ _ hc => h.called hc
  constructor
  · refine h.frames hs.frames (fun _ _ hf => hf.mono hmono) ?_ ?_
    · intro i e f m _ ht hf hm hshape
      have hspawn : ∀ g, m.spawn = some g → t.Called s.frames.length g.scope g.body.call := by
        intro g hg
        rw [ht]
        exact called_spawn hf hg
      refine ⟨⟨hshape.scope.mono hmono, ?_⟩,
        hm.spawn_shape hmono hspawn hshape.scope hshape.body⟩
      have hi := lt_of_frame? hf
      have hbody := hshape.body
      obtain ⟨c, body⟩ := f
      cases hm with
      | many hm => exact hm.shape hi hmono hs.tasks hspawn hbody
      | owned hm => exact hm.shape hi hmono hspawn hbody.1 hbody.2
      | work hm => exact hm.shape hi hspawn hbody
      | produce hm => exact hm.shape hi hspawn hbody
      | refresh hm => exact hm.shape hmono hs.tasks hspawn hbody.1
    · intro r d ks _
      exact ⟨fun p hp => by simp [callFrame] at hp, trivial⟩
  · cases h with
    | @run i e f m hf hm =>
      exact hm.tasks hmono hs.tasks fun g hg => called_spawn hf hg
    | tick => exact hs.tasks
    | openRuntime => exact hs.tasks
    | call => exact fun k p hk => (hs.tasks k p hk).mono hmono
    | external => exact hs.tasks

theorem shape_initial (b : Builder K V) (now : ℚ) (cache : AsyncMemoryCache K V)
    (revisions : List (Dict K ℕ)) : Shape b (State.initial now cache revisions) := by
  constructor
  · intro i f hf
    simp [State.frame?, State.initial] at hf
  · intro k p hk
    simp [State.initial] at hk

end
end Coalestra
