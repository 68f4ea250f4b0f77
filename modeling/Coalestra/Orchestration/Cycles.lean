import Mathlib.Data.List.Chain
import Coalestra.Lib.Grounded
import Coalestra.Orchestration.Deadlock
import Coalestra.Orchestration.Discipline

/-! # Dependency cycles

The cycle check looks at the ancestry of one recursion path. It is sound: a reported path is a
cycle of declared dependencies. It is complete as far as values go: a key that cannot be had
without going through a cycle never gets a value. Two workers that enter a cycle from different
sides meet in single flight, where no ancestry is known, and may wait for each other. -/

namespace Coalestra
set_option autoImplicit false
set_option maxHeartbeats 250000

section
variable {K V : Type} [DecidableEq K]

/-! ## Keys that can be had -/

/-- Some source of the builder supports `key`: a direct one, or a derived one from `parts`. -/
def Builder.Obtains (b : Builder K V) (key : K) (parts : List K) : Prop :=
  ∃ source ∈ b.sources, source.supports key = .ok true ∧
    (source.kind ≠ .derived ∧ parts = [] ∨
      source.kind = .derived ∧ source.dependencies key = .ok parts)

/-- A value in the cache gives its key, and sources give theirs. -/
def Builder.Gives (b : Builder K V) (cache : AsyncMemoryCache K V) (key : K) (parts : List K) :
    Prop :=
  b.Obtains key parts ∨ parts = [] ∧ ∃ v, cache.get? key = some v

/-- `key` can be had from a value of the cache or from sources, without going in circles. -/
def Builder.Had (b : Builder K V) (cache : AsyncMemoryCache K V) (key : K) : Prop :=
  Grounded (b.Gives cache) key

/-- `path` goes from a key along declared dependencies back to it. -/
def Builder.Cycle (b : Builder K V) (path : List K) : Prop :=
  ∃ key rest, path = key :: rest ++ [key] ∧ path.IsChain b.DependsOn

omit [DecidableEq K] in
theorem dependsOn_of_partOf {b : Builder K V} {k d : K} (h : PartOf b.Obtains k d) :
    b.DependsOn k d := by
  obtain ⟨parts, ⟨source, hs, hsupports, ⟨_, rfl⟩ | ⟨hkind, hdep⟩⟩, hd⟩ := h
  · cases hd
  · exact ⟨source, hs, hkind, hsupports, parts, hdep, hd⟩

/-- Among finitely many keys with sources, what cannot be had leads into a cycle of declared
dependencies. -/
theorem not_had_reaches_cycle (b : Builder K V) (cache : AsyncMemoryCache K V) {U : Set K}
    (hfinite : U.Finite) (hclosed : ∀ k ∈ U, ∀ d, b.DependsOn k d → d ∈ U)
    (hsource : ∀ k ∈ U, ∃ parts, b.Obtains k parts) {k : K} (hk : k ∈ U)
    (hn : ¬ b.Had cache k) : ∃ c, Relation.ReflTransGen b.DependsOn k c ∧
      Relation.TransGen b.DependsOn c c := by
  have hpart : ∀ x y, PartOf (b.Gives cache) x y → b.DependsOn x y := by
    rintro x y ⟨parts, hgives | ⟨rfl, _⟩, hy⟩
    · exact dependsOn_of_partOf ⟨parts, hgives, hy⟩
    · cases hy
  obtain ⟨c, hreach, hcycle⟩ := exists_cycle_of_not_grounded hfinite
    (fun a ha p hp => hclosed a ha p (hpart a p hp))
    (fun a ha => (hsource a ha).imp fun _ h => .inl h) hk hn
  exact ⟨c, Relation.ReflTransGen.mono hpart _ _ hreach, Relation.TransGen.mono hpart _ _ hcycle⟩

/-! ## The cycle check -/

/-- Without a cycle no declared dependency lies on the path. -/
theorem cycleIn_none {path : List K} : ∀ {declared : List K},
    Builder.cycleIn path declared = none → ∀ d ∈ declared, d ∉ path
  | [], _, d, hd => by cases hd
  | dependency :: rest, h, d, hd => by
      rw [Builder.cycleIn] at h
      split at h
      · cases h
      · rename_i hnot
        rcases List.mem_cons.mp hd with rfl | hd
        · exact hnot
        · exact cycleIn_none h d hd

/-- The reported path starts where the declared dependency lies on the path. -/
theorem cycleIn_some {path cycle : List K} : ∀ {declared : List K},
    Builder.cycleIn path declared = some cycle → ∃ d ∈ declared, d ∈ path ∧
      cycle = path.dropWhile (fun k => decide (k ≠ d)) ++ [d]
  | [], h => by cases h
  | dependency :: rest, h => by
      rw [Builder.cycleIn] at h
      split at h
      · rename_i hmem
        rw [Option.some.injEq] at h
        exact ⟨dependency, List.mem_cons_self, hmem, h.symm⟩
      · obtain ⟨d, hd, hmem, hc⟩ := cycleIn_some h
        exact ⟨d, List.mem_cons_of_mem _ hd, hmem, hc⟩

theorem dropWhile_ne_of_mem {d : K} : ∀ {path : List K}, d ∈ path →
    ∃ rest, path.dropWhile (fun k => decide (k ≠ d)) = d :: rest
  | [], h => by cases h
  | k :: path, h => by
      by_cases hk : k = d
      · subst hk
        exact ⟨path, by simp⟩
      · obtain ⟨rest, hrest⟩ := dropWhile_ne_of_mem ((List.mem_cons.mp h).resolve_left
          fun e => hk e.symm)
        exact ⟨rest, by simpa [hk] using hrest⟩

/-- A path of declared dependencies to `k`, one of which closes a cycle. -/
theorem cycleIn_cycle {b : Builder K V} {path declared cycle : List K} {k : K}
    (hpath : (path ++ [k]).IsChain b.DependsOn) (hk : ∀ d ∈ declared, b.DependsOn k d)
    (h : Builder.cycleIn (path ++ [k]) declared = some cycle) : b.Cycle cycle := by
  obtain ⟨d, hd, hmem, rfl⟩ := cycleIn_some h
  obtain ⟨rest, hrest⟩ := dropWhile_ne_of_mem hmem
  have hsuffix := List.dropWhile_suffix (l := path ++ [k]) fun k => decide (k ≠ d)
  refine ⟨d, rest, by rw [hrest], ?_⟩
  refine List.IsChain.append (hpath.suffix hsuffix) (List.isChain_singleton d) ?_
  intro x hx y hy
  have hlast : ((path ++ [k]).dropWhile fun k => decide (k ≠ d)).getLast? = some k := by
    obtain ⟨front, hfront⟩ := hsuffix
    have hends := congrArg List.getLast? hfront
    rw [hrest] at hends ⊢
    simpa using hends
  rw [hlast, Option.mem_some_iff] at hx
  rw [List.head?_cons, Option.mem_some_iff] at hy
  subst hx hy
  exact hk d hd

/-! ## The discipline of derivation -/

/-- The keys above `k` and `k` itself: a path of declared dependencies inside `U` without a
repetition. -/
structure Builder.Path (b : Builder K V) (U : K → Prop) (above : List K) (k : K) : Prop where
  chain : (above ++ [k]).IsChain b.DependsOn
  nodup : (above ++ [k]).Nodup
  within : ∀ x ∈ above ++ [k], U x

/-- What sources make of such keys is such a key. -/
def Builder.MakesOnly (b : Builder K V) (had : K → Prop) : Prop :=
  ∀ k parts, b.Obtains k parts → (∀ p ∈ parts, had p) → had k

theorem had_makesOnly (b : Builder K V) (cache : AsyncMemoryCache K V) :
    b.MakesOnly (b.Had cache) :=
  fun _ _ h hparts => .intro (.inl h) hparts

theorem had_cached {b : Builder K V} {cache : AsyncMemoryCache K V} {k : K}
    {v : SnapshotValue K V} (h : cache.get? k = some v) : b.Had cache k :=
  .intro (.inr ⟨rfl, v, h⟩) fun _ hp => by cases hp

/-- An error that is no cycle, or reports a real one. -/
def Builder.CycleSound (b : Builder K V) (e : Error K) : Prop :=
  ∀ path, e = .dependencyCycle path → b.Cycle path

/-- Every frame resolves keys below a path of declared dependencies, every value belongs to a key
that is `had`, and every reported cycle is real. -/
def derivations (b : Builder K V) (U had : K → Prop) : Discipline K V where
  covers _ _ := True
  covers_mono _ _ _ _ _ := trivial
  asked _ above k := b.Path U above k
  acquired _ above k := b.Path U above k
  clock _ := True
  lookup _ k x := ∀ v, x.value = some v → had k
  candidate _ k _ := had k
  copy _ k _ := had k
  served _ k _ := had k
  value _ k _ := had k
  best _ k _ := had k
  winner _ k _ := had k
  error _ _ e := b.CycleSound e
  raised _ e := b.CycleSound e
  failure _ _ _ := True
  attempt _ _ k a := match a with
    | .succeeded _ _ => had k
    | .failed e => b.CycleSound e
  derivable _ _ keys := ∀ k ∈ keys, had k
  dependencies _ _ keys _ := ∀ k ∈ keys, had k
  shares _ _ := True

/-- The cache and the memos hold values of such keys only. -/
structure HoldsOnly (had : K → Prop) (s : State K V) : Prop where
  cache : ∀ k v, s.cache.get? k = some v → had k
  memo : ∀ r k v, (s.runtime r).memo.get? k = some v → had k

omit [DecidableEq K] in
theorem cycleSound_of_ne {b : Builder K V} {e : Error K} (h : ∀ path, e ≠ .dependencyCycle path) :
    b.CycleSound e := fun path he => absurd he (h path)

omit [DecidableEq K] in
theorem cycleSound_fault {b : Builder K V} (fault : Fault) :
    b.CycleSound (fault.error : Error K) := by
  refine cycleSound_of_ne ?_
  intro path
  cases fault <;> exact fun h => by cases h

omit [DecidableEq K] in
theorem path_single (b : Builder K V) {U : K → Prop} {k : K} (hk : U k) : b.Path U [] k := by
  refine ⟨List.isChain_singleton k, List.nodup_singleton k, ?_⟩
  intro x hx
  rw [List.nil_append, List.mem_singleton] at hx
  exact hx ▸ hk

omit [DecidableEq K] in
theorem Builder.Path.mem {b : Builder K V} {U : K → Prop} {above : List K} {k : K}
    (h : b.Path U above k) : U k := h.within k (List.mem_append_right _ List.mem_cons_self)

omit [DecidableEq K] in
/-- A declared dependency that is not on the path extends it. -/
theorem Builder.Path.extend {b : Builder K V} {U : K → Prop} {above : List K} {k d : K}
    (h : b.Path U above k) (hd : b.DependsOn k d) (hU : U d) (hnew : d ∉ above ++ [k]) :
    b.Path U (above ++ [k]) d where
  chain := by
    refine List.IsChain.append h.chain (List.isChain_singleton d) ?_
    intro x hx y hy
    rw [List.getLast?_concat, Option.mem_some_iff] at hx
    rw [List.head?_cons, Option.mem_some_iff] at hy
    subst hx hy
    exact hd
  nodup := by
    rw [List.nodup_append]
    refine ⟨h.nodup, List.nodup_singleton d, ?_⟩
    intro a ha x hx e
    rw [List.mem_singleton] at hx
    exact hnew (hx ▸ e ▸ ha)
  within := by
    intro x hx
    rcases List.mem_append.mp hx with hx | hx
    · exact h.within x hx
    · rw [List.mem_singleton] at hx
      exact hx ▸ hU

theorem pinned_memo {r : ResolutionRuntime K V} {k : K} {v : SnapshotValue K V}
    (h : r.pinned k = some v) : r.memo.get? k = some v :=
  (ResolutionRuntime.pinned_eq_some.mp h).2

theorem derivations_rules {b : Builder K V} {U had : K → Prop}
    (hU : ∀ k, U k → ∀ d, b.DependsOn k d → U d) (hhad : b.MakesOnly had) {s : State K V}
    (hs : HoldsOnly had s) {c : Scope K} {body : Body K V} {e : Event K V} :
    Rules b s c body e (derivations b U had) where
  clock := trivial
  refreshed k h := path_single b h.mem
  missing _ h _ := h
  pinned k v _ hv := hs.memo _ k v (pinned_memo hv)
  revisited k v _ hv := hs.memo _ k v (pinned_memo hv)
  read now k x _ _ hx := by
    intro v hv
    rcases hx with ⟨hnone, _, _⟩ | ⟨w, hw, rfl, _⟩
    · rw [hnone] at hv
      cases hv
    · exact hs.cache k w hw
  isolated k x hx := by
    intro v hv
    obtain ⟨w, hw, _⟩ := Option.map_eq_some_iff.mp hv
    exact hx w hw
  hit k x v _ hx hv _ := hx v hv
  kept k x v hx hv _ _ := hx v hv
  fallback _ _ _ h _ := h
  installed _ _ _ h := h
  serve _ _ _ _ _ _ _ _ h := h
  joins _ _ _ _ _ _ _ := ⟨trivial, trivial⟩
  shares_self := trivial
  joinValue _ _ _ _ _ _ h := h
  joinError _ _ _ _ _ _ h := h
  joinRaised _ _ _ h := h
  unsupported _ _ _ _ _ _ := trivial
  direct source keys hsource hkind hkeys k hk :=
    hhad k [] ⟨source, hsource, (hkeys k hk).1, .inl ⟨hkind, rfl⟩⟩ fun p hp => by cases hp
  undeclared _ _ fault _ _ _ := cycleSound_fault fault
  cyclic source k declared cycle hsource hkind hsupports hdep hk hc := by
    rintro path ⟨⟩
    refine cycleIn_cycle hk.chain ?_ hc
    intro d hd
    exact ⟨source, hsource, hkind, hsupports, declared, hdep, Dict.mem_fromKeys.mp hd⟩
  depends source k declared d hsource hkind hsupports hdep hd hc hk := by
    have hdepends : b.DependsOn k d := ⟨source, hsource, hkind, hsupports, declared, hdep, hd⟩
    exact hk.extend hdepends (hU k hk.mem d hdepends) (cycleIn_none hc d (Dict.mem_fromKeys.mpr hd))
  derives source k declared hsource hkind hsupports hdep hserved k' hk' := by
    rw [List.mem_singleton] at hk'
    rw [hk']
    refine hhad k declared ⟨source, hsource, hsupports, .inr ⟨hkind, hdep⟩⟩ ?_
    intro d hd
    obtain ⟨v, hv⟩ := hserved d hd
    exact hv
  unresolved _ _ _ := cycleSound_of_ne fun _ h => by cases h
  childRaised _ _ _ h := h
  versions _ _ _ h _ := h
  answered source keys versions payload k h hk := by
    unfold Builder.attemptOf
    split
    · exact h k hk
    · exact cycleSound_of_ne fun _ h => by cases h
  answeredBatch source keys versions payload k h hk _ := by
    unfold Builder.attemptOf
    split
    · exact h k hk
    · exact cycleSound_of_ne fun _ h => by cases h
  omitted _ _ _ _ := cycleSound_of_ne fun _ h => by cases h
  failed _ _ _ fault _ _ _ _ := cycleSound_fault fault
  interrupted fault _ := cycleSound_fault fault
  refused _ _ _ _ _ _ := trivial
  stale source k a v versions ha hh := by
    obtain ⟨payload, rfl, _⟩ := harvest_value (.inr hh)
    exact ⟨trivial, fun _ => ha⟩
  fresh _ _ source _ _ k _ _ a v versions _ _ ha hh := by
    obtain ⟨payload, rfl, _⟩ := harvest_value (.inl hh)
    exact ha
  superseded fresh x hfresh hx := by
    obtain ⟨v, hv, hkey, _⟩ := mem_superseded hx
    rw [hkey]
    exact (hfresh v hv).2
  supersedes _ _ _ _ _ _ _ _ h := h
  bestStale _ _ _ _ _ _ _ _ h := h
  exhausted _ _ _ := cycleSound_of_ne fun _ h => by cases h
  omittedKey _ _ := cycleSound_of_ne fun _ h => by cases h

/-! ## Steps -/

/-- No other owner of the cache and no new runtime brings a value of another key. -/
def BringsOnly (had : K → Prop) : Label K V → Prop
  | .external cache => ∀ k v, cache.get? k = some v → had k
  | .openRuntime r => ∀ k v, r.memo.get? k = some v → had k
  | _ => True

/-- Only keys of `U` are requested. -/
def RequestsWithin (U : K → Prop) : Label K V → Prop
  | .call _ _ keys => ∀ k ∈ keys, U k
  | _ => True

theorem Stepped.derivations {b : Builder K V} {U had : K → Prop}
    (hU : ∀ k, U k → ∀ d, b.DependsOn k d → U d) (hhad : b.MakesOnly had) {s t : State K V}
    {l : Label K V} (h : Stepped b s l t) (hl : RequestsWithin U l) (hshape : Shape b s)
    (hs : HoldsOnly had s) (hk : s.Keeps (Coalestra.derivations b U had)) :
    t.Keeps (Coalestra.derivations b U had) := by
  refine h.keeps hshape hk (fun i e f m _ _ _ _ => derivations_rules hU hhad hs) ?_ ?_
  · intro i e f m g _ _ _ hcov
    exact absurd trivial hcov
  · rintro runtime deadline keys k rfl hmem
    exact path_single b (hl k hmem)

theorem Stepped.holdsOnly {b : Builder K V} {U had : K → Prop}
    (hU : ∀ k, U k → ∀ d, b.DependsOn k d → U d) (hhad : b.MakesOnly had) {s t : State K V}
    {l : Label K V} (h : Stepped b s l t) (hl : BringsOnly had l) (hs : HoldsOnly had s)
    (hk : s.Keeps (Coalestra.derivations b U had)) : HoldsOnly had t := by
  cases h with
  | @run i e f m hf hm =>
    have hholds := hk i f hf trivial
    constructor
    · intro k v hv
      rcases hm.cache_cases hv with hold | ⟨w, hw, hkey, _⟩
      · exact hs.cache k v hold
      · exact hkey ▸ (hholds.writing w hw).2
    · intro r k v hv
      rcases hm.memo_cases hv with hold | ⟨_, hi⟩
      · exact hs.memo r k v hold
      · exact (derivations_rules (e := e) hU hhad hs).installs hholds hi
  | @openRuntime r _ =>
    refine ⟨hs.cache, ?_⟩
    intro n k v hv
    rcases Nat.lt_or_ge n s.runtimes.length with hn | hn
    · rw [runtime_append_lt (s := s.toShared) (r := r) rfl hn] at hv
      exact hs.memo n k v hv
    · rcases (runtime_append_ge (s := s.toShared) (t := { s.toShared with
          runtimes := s.runtimes ++ [r] }) rfl hn).2 with ⟨hr, _⟩ | hr
      · rw [hr] at hv
        exact hl k v hv
      · rw [hr] at hv
        cases hv
  | external => exact ⟨hl, hs.memo⟩
  | tick => exact ⟨hs.cache, hs.memo⟩
  | call => exact ⟨hs.cache, hs.memo⟩

/-- What runs keep: derivations along paths of declared dependencies, and values of keys that are
`had`. -/
structure Derives (b : Builder K V) (U had : K → Prop) (s : State K V) : Prop where
  shape : Shape b s
  stores : HoldsOnly had s
  keeps : s.Keeps (derivations b U had)

theorem derives_initial (b : Builder K V) (U had : K → Prop) (now : ℚ)
    {cache : AsyncMemoryCache K V} (revisions : List (Dict K ℕ))
    (hcache : ∀ k v, cache.get? k = some v → had k) :
    Derives b U had (State.initial now cache revisions) := by
  refine ⟨shape_initial b now cache revisions, ⟨hcache, ?_⟩, ?_⟩
  · intro r k v hv
    simp [Shared.runtime, State.initial, ResolutionRuntime.new] at hv
  · intro i f hf
    simp [State.frame?, State.initial] at hf

theorem Stepped.derives {b : Builder K V} {U had : K → Prop}
    (hU : ∀ k, U k → ∀ d, b.DependsOn k d → U d) (hhad : b.MakesOnly had) {s t : State K V}
    {l : Label K V} (h : Stepped b s l t) (hrequests : RequestsWithin U l)
    (hbrings : BringsOnly had l) (hs : Derives b U had s) : Derives b U had t :=
  ⟨h.shape hs.shape, h.holdsOnly hU hhad hbrings hs.stores hs.keeps,
    h.derivations hU hhad hrequests hs.shape hs.stores hs.keeps⟩

end
end Coalestra
