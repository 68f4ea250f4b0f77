import Coalestra.Orchestration.Deadlock
import Coalestra.Orchestration.Discipline

/-! # Coherence of one snapshot

A derived value records the versions of the values it was computed from. Inside one session these
are the versions that the session delivers, as long as no key gets a second revision and no cached
value is mixed with another revision of something it was derived from. The builder checks neither. -/

namespace Coalestra
set_option autoImplicit false
set_option maxHeartbeats 250000

section
variable {K V : Type} [DecidableEq K]

/-! ## Revisions in a memo -/

/-- Two copies of one revision. -/
def SnapshotValue.SameRevision (v w : SnapshotValue K V) : Prop :=
  v.version = w.version ∧ v.dependencyVersions = w.dependencyVersions

namespace ResolutionRuntime

/-- The memo holds this revision of `k`. -/
def HasRevision (r : ResolutionRuntime K V) (k : K) (v : SnapshotValue K V) : Prop :=
  ∃ w, r.memo.get? k = some w ∧ w.SameRevision v

/-- The memo holds values of exactly these versions. -/
def Knows (r : ResolutionRuntime K V) (versions : Dict K ℕ) : Prop :=
  ∀ d n, versions.get? d = some n → ∃ w, r.memo.get? d = some w ∧ w.version = n

/-- The memo holds no other versions than these. -/
def Agrees (r : ResolutionRuntime K V) (versions : Dict K ℕ) : Prop :=
  ∀ d n w, versions.get? d = some n → r.memo.get? d = some w → n = w.version

/-- A value derived in the session has its dependencies in the memo, and no value of the memo was
derived from another version of an entry. -/
structure Coherent (r : ResolutionRuntime K V) : Prop where
  derived : ∀ k v, r.memo.get? k = some v → v.fromCache = false → r.Knows v.dependencyVersions
  agrees : ∀ k v, r.memo.get? k = some v → r.Agrees v.dependencyVersions

/-- `v` may become the entry of `k`: the memo holds no other revision of `k`, and neither a cached
`v` nor a cached entry is mixed with another version of something it was derived from. -/
structure Admits (r : ResolutionRuntime K V) (k : K) (v : SnapshotValue K V) : Prop where
  once : ∀ w, r.memo.get? k = some w → w.SameRevision v
  cached : v.fromCache = true → (r.remember k v).Agrees v.dependencyVersions
  based : ∀ j w n, r.memo.get? j = some w → w.fromCache = true →
    w.dependencyVersions.get? k = some n → n = v.version

theorem Knows.empty (r : ResolutionRuntime K V) : r.Knows .empty := by
  intro d n h
  simp at h

/-- Every revision is still there. -/
def Extends (r r' : ResolutionRuntime K V) : Prop :=
  ∀ k v, r.memo.get? k = some v → r'.HasRevision k v

variable {r r' : ResolutionRuntime K V} {k : K} {v : SnapshotValue K V}

theorem HasRevision.mono (h : r.HasRevision k v) (he : r.Extends r') : r'.HasRevision k v := by
  obtain ⟨w, hw, hversion, hdeps⟩ := h
  obtain ⟨x, hx, hversion', hdeps'⟩ := he k w hw
  exact ⟨x, hx, hversion'.trans hversion, hdeps'.trans hdeps⟩

theorem Knows.mono {versions : Dict K ℕ} (h : r.Knows versions) (he : r.Extends r') :
    r'.Knows versions := by
  intro d n hd
  obtain ⟨w, hw, hn⟩ := h d n hd
  obtain ⟨x, hx, hversion, _⟩ := he d w hw
  exact ⟨x, hx, hversion.trans hn⟩

/-- The versions of values that the memo holds. -/
theorem Knows.of_revisions {values : Dict K (SnapshotValue K V)}
    (h : ∀ k v, values.get? k = some v → r.HasRevision k v) :
    r.Knows (.comprehend values.keys fun k => (values.get? k).map SnapshotValue.version) := by
  intro d n hd
  rw [Dict.get?_comprehend] at hd
  split at hd
  · obtain ⟨v, hv, hn⟩ := Option.map_eq_some_iff.mp hd
    obtain ⟨w, hw, hversion, _⟩ := h d v hv
    exact ⟨w, hw, hversion.trans hn⟩
  · cases hd

theorem Knows.agrees {versions : Dict K ℕ} (h : r.Knows versions) : r.Agrees versions := by
  intro d n w hd hw
  obtain ⟨x, hx, hn⟩ := h d n hd
  rw [hw, Option.some.injEq] at hx
  rw [hx, hn]

theorem Extends.of_memo_eq (h : r'.memo = r.memo) : r.Extends r' :=
  fun k v hv => ⟨v, by rw [h, hv], rfl, rfl⟩

theorem Stored.extends (h : Stored r r' k v)
    (honce : ∀ w, r.memo.get? k = some w → w.SameRevision v) : r.Extends r' := by
  intro j w hj
  by_cases hjk : j = k
  · subst hjk
    obtain ⟨hversion, hdeps⟩ := honce w hj
    exact ⟨v, by rw [h.memo, Dict.get?_set_self], hversion.symm, hdeps.symm⟩
  · exact ⟨w, by rw [h.memo, Dict.get?_set_ne _ _ hjk, hj], rfl, rfl⟩

/-- What is stored keeps the memo coherent, if it was admitted and, unless cached, derived from the
memo. -/
theorem Stored.coherent (h : Stored r r' k v) (ha : r.Admits k v)
    (hv : v.fromCache = false → r'.Knows v.dependencyVersions) (hr : r.Coherent) :
    r'.Coherent := by
  have hextends := h.extends ha.once
  have hmemo : r'.memo = (r.remember k v).memo := h.memo
  constructor
  · intro j w hj hcache
    rw [h.memo, Dict.get?_set] at hj
    split at hj
    · cases hj
      exact hv hcache
    · exact (hr.derived j w hj hcache).mono hextends
  · intro j w hj d n x hn hx
    have hx' := hx
    rw [h.memo, Dict.get?_set] at hj hx'
    split at hj
    · cases hj
      cases hcache : v.fromCache with
      | false => exact (hv hcache).agrees d n x hn hx
      | true =>
        rw [hmemo] at hx
        exact ha.cached hcache d n x hn hx
    · split at hx'
      · rename_i hdk
        subst hdk
        cases hx'
        cases hcache : w.fromCache with
        | true => exact ha.based j w n hj hcache hn
        | false =>
          obtain ⟨y, hy, hyn⟩ := hr.derived j w hj hcache d n hn
          rw [← hyn, (ha.once y hy).1]
      · exact hr.agrees j w hj d n x hn hx'

end ResolutionRuntime

/-! ## The discipline of revisions -/

/-- Served values are revisions of the memo, and values of the session itself are derived from it. -/
def revisions (memos : ℕ → ResolutionRuntime K V) : Discipline K V where
  covers _ _ := True
  covers_mono _ _ _ _ _ := trivial
  asked _ _ _ := True
  acquired _ _ _ := True
  clock _ := True
  lookup _ _ _ := True
  candidate _ _ _ := True
  copy _ _ v := v.fromCache = true
  served o k v := (memos o.2).HasRevision k v
  value o _ v := v.fromCache = false → (memos o.2).Knows v.dependencyVersions
  best o _ v := v.fromCache = false → (memos o.2).Knows v.dependencyVersions
  winner _ _ _ := True
  error _ _ _ := True
  raised _ _ := True
  failure _ _ _ := True
  attempt o _ _ a := match a with
    | .succeeded _ versions => (memos o.2).Knows versions
    | .failed _ => True
  derivable _ _ _ := True
  dependencies o _ _ versions := (memos o.2).Knows versions
  shares o' o := o'.2 = o.2

theorem revisions_implies {memos memos' : ℕ → ResolutionRuntime K V}
    (h : ∀ n, (memos n).Extends (memos' n)) (o : Origin) :
    (revisions memos).Implies (revisions memos') o where
  served k v hv := hv.mono (h o.2)
  value k v hv hcache := (hv hcache).mono (h o.2)
  best k v hv hcache := (hv hcache).mono (h o.2)
  attempt source k a ha := by
    cases a with
    | succeeded payload versions => exact ResolutionRuntime.Knows.mono ha (h o.2)
    | failed e => trivial
  dependencies source keys versions hv := hv.mono (h o.2)

/-- A coroutine joins flights of its own session only. -/
def JoinsOwn (s : State K V) (l : Label K V) : Prop :=
  ∀ i f q key cp owned, l = .run i .go → s.frame? i = some f → key ∈ f.body.reserving →
    s.tasks.get? key = some q → s.Called q cp (.produce owned) →
    cp.runtime = f.scope.runtime

/-- Every value that a coroutine is about to store is admitted by the memo of its session. -/
def InstallsCoherently (b : Builder K V) (s : State K V) (l : Label K V) : Prop :=
  ∀ i f k v, l = .run i .go → s.frame? i = some f → Installs b s f.body k v →
    (s.runtime f.scope.runtime).Admits k v

/-- A session starts with a coherent memo. -/
def OpensCoherent : Label K V → Prop
  | .openRuntime r => r.Coherent
  | _ => True

variable {b : Builder K V} {s t : State K V} {c : Scope K} {body : Body K V} {e : Event K V}
  {m : Step K V} {l : Label K V}

theorem Move.extends (hm : Move b s c body e m)
    (honce : e = .go → ∀ k v w, Installs b s body k v →
      (s.runtime c.runtime).memo.get? k = some w → w.SameRevision v) (n : ℕ) :
    (s.runtime n).Extends (m.shared.runtime n) := by
  by_cases he : e = .go
  · rcases hm.runtime n with hsame | ⟨rfl, k, v, hi, hstored⟩ | ⟨_, hnew, _⟩
    · rw [hsame]
      exact .of_memo_eq rfl
    · exact hstored.extends fun w => honce he k v w hi
    · intro k v hv
      rw [hnew] at hv
      cases hv
  · refine .of_memo_eq ?_
    rw [hm.shared_of_ne_go he]

theorem revisions_rules (hm : Move b s c body e m) (hr : c.runtime < s.runtimes.length)
    (hs : ∀ n, (s.runtime n).Coherent) (hgrow : ∀ n, (s.runtime n).Extends (m.shared.runtime n))
    (hjoins : e = .go → ∀ k q cp owned, k ∈ body.reserving → s.tasks.get? k = some q →
      s.Called q cp (.produce owned) → cp.runtime = c.runtime) :
    Rules b s c body e (revisions m.shared.runtime) where
  clock := trivial
  refreshed _ _ := trivial
  missing _ _ _ := trivial
  pinned k v _ hv := hgrow c.runtime k v (ResolutionRuntime.pinned_eq_some.mp hv).2
  revisited k v _ hv hcache := ((hs c.runtime).derived k v
    (ResolutionRuntime.pinned_eq_some.mp hv).2 hcache).mono (hgrow c.runtime)
  read _ _ _ _ _ _ := trivial
  isolated _ _ _ := trivial
  hit _ _ _ _ _ _ _ := rfl
  kept _ _ _ _ _ _ _ := trivial
  fallback _ _ _ _ _ := rfl
  installed k v _ hcache hnot := by
    rw [show v.fromCache = true from hcache] at hnot
    cases hnot
  serve keys l p k v hbody he hi _ := by
    subst hbody he
    cases hm with
    | many hm => exact ⟨v, hm.stored hi hr, rfl, rfl⟩
  joins k q cp owned hk hq hc := ⟨trivial, hjoins (hm.go_of_reserving hk) k q cp owned hk hq hc⟩
  shares_self := rfl
  joinValue o path k v ho _ hv := by
    have howner : o.2 = c.origin.2 := ho
    intro hcache
    have hknows : (m.shared.runtime o.2).Knows v.dependencyVersions := hv hcache
    rwa [howner] at hknows
  joinError _ _ _ _ _ _ _ := trivial
  joinRaised _ _ _ _ := trivial
  unsupported _ _ _ _ _ _ := trivial
  direct _ _ _ _ _ := .empty _
  undeclared _ _ _ _ _ _ := trivial
  cyclic _ _ _ _ _ _ _ _ _ _ := trivial
  depends _ _ _ _ _ _ _ _ _ _ _ := trivial
  derives _ _ _ _ _ _ _ _ := trivial
  unresolved _ _ _ := trivial
  childRaised _ _ _ _ := trivial
  versions _ _ _ _ hserved := .of_revisions hserved
  answered source keys versions payload k h _ := by
    unfold Builder.attemptOf
    split
    · exact h
    · trivial
  answeredBatch source keys versions payload k _ _ _ := by
    unfold Builder.attemptOf
    split
    · exact ResolutionRuntime.Knows.empty _
    · trivial
  omitted _ _ _ _ := trivial
  failed _ _ _ _ _ _ _ _ := trivial
  interrupted _ _ := trivial
  refused _ _ _ _ _ _ := trivial
  stale source k a v versions ha hh := by
    obtain ⟨payload, rfl, rfl⟩ := harvest_value (.inr hh)
    exact ⟨trivial, fun _ _ => ha⟩
  fresh _ _ source _ _ k _ _ a v versions _ _ ha hh := by
    obtain ⟨payload, rfl, rfl⟩ := harvest_value (.inl hh)
    exact fun _ => ha
  superseded _ _ _ _ := trivial
  supersedes _ _ _ _ _ _ _ _ _ := rfl
  bestStale _ _ _ _ _ _ _ _ h := h
  exhausted _ _ _ := trivial
  omittedKey _ _ := trivial

/-! ## Steps -/

/-- Nothing joins another session's flight, and everything stored is admitted. -/
structure StepsCoherently (b : Builder K V) (s : State K V) (l : Label K V) : Prop where
  joins : JoinsOwn s l
  installs : InstallsCoherently b s l
  opens : OpensCoherent l

/-- What runs keep: coherent memos that all served values come from. -/
structure CoherentState (b : Builder K V) (s : State K V) : Prop where
  shape : Shape b s
  runtimes : RuntimesOpen s
  memos : ∀ n, (s.runtime n).Coherent
  keeps : s.Keeps (revisions s.runtime)

theorem coherent_new : (ResolutionRuntime.new : ResolutionRuntime K V).Coherent := by
  constructor
  · intro k v hv
    cases hv
  · intro k v hv
    cases hv

theorem State.Keeps.mono {D D' : Discipline K V} (h : s.Keeps D) (I : ∀ o, D.Implies D' o)
    (hcovers : ∀ i o, D'.covers i o → D.covers i o) : s.Keeps D' :=
  fun i f hf hc => (h i f hf (hcovers i _ hc)).imp (I f.scope.origin)

theorem coherentState_initial (b : Builder K V) (now : ℚ) (cache : AsyncMemoryCache K V)
    (revisions : List (Dict K ℕ)) : CoherentState b (State.initial now cache revisions) := by
  refine ⟨shape_initial b now cache revisions, ?_, fun n => ?_, ?_⟩
  · intro i f hf
    simp [State.frame?, State.initial] at hf
  · simp only [Shared.runtime, State.initial, List.getElem?_nil, Option.getD_none]
    exact coherent_new
  · intro i f hf
    simp [State.frame?, State.initial] at hf

theorem Stepped.coherentState (h : Stepped b s l t) (hl : StepsCoherently b s l)
    (hs : CoherentState b s) : CoherentState b t := by
  have hshape := h.shape hs.shape
  have hruntimes := h.runtimesOpen hs.runtimes
  cases h with
  | @run i e f m hf hm =>
    have hr := hs.runtimes i f hf
    have hadmits : e = .go → ∀ k v, Installs b s f.body k v →
        (s.runtime f.scope.runtime).Admits k v := by
      rintro rfl k v hi
      exact hl.installs i f k v rfl hf hi
    have hjoins : e = .go → ∀ k q cp owned, k ∈ f.body.reserving → s.tasks.get? k = some q →
        s.Called q cp (.produce owned) → cp.runtime = f.scope.runtime := by
      rintro rfl k q cp owned hk hq hc
      exact hl.joins i f q k cp owned rfl hf hk hq hc
    have hgrow := hm.extends fun he k v w hi => (hadmits he k v hi).once w
    have hrules := revisions_rules hm hr hs.memos hgrow hjoins
    have hkeeps : s.Keeps (revisions m.shared.runtime) :=
      hs.keeps.mono (revisions_implies hgrow) fun _ _ h => h
    refine ⟨hshape, hruntimes, fun n => ?_, ?_⟩
    · show (m.shared.runtime n).Coherent
      by_cases he : e = .go
      · rcases hm.runtime n with hsame | ⟨rfl, k, v, hi, hstored⟩ | ⟨_, _, hnone⟩
        · rw [hsame]
          exact hs.memos n
        · exact hstored.coherent (hadmits he k v hi)
            (hrules.installs (hkeeps i f hf trivial) hi) (hs.memos _)
        · constructor
          · intro k v hv
            rw [hnone k] at hv
            cases hv
          · intro k v hv
            rw [hnone k] at hv
            cases hv
      · rw [hm.shared_of_ne_go he]
        exact hs.memos n
    · show (s.apply i f m).Keeps (revisions m.shared.runtime)
      refine (Stepped.run hf hm).keeps hs.shape hkeeps ?_ ?_ ?_
      · intro j e' g m' hlabel hg hm' _
        cases hlabel
        rw [hf, Option.some.injEq] at hg
        subst hg
        exact hrules
      · intro j e' g m' g' _ _ _ hcov
        exact absurd trivial hcov
      · intro _ _ _ _ hlabel
        cases hlabel
  | tick => exact ⟨hshape, hruntimes, hs.memos, hs.keeps⟩
  | @openRuntime r _ =>
    have hopens : r.Coherent := hl.opens
    have hgrow : ∀ n, (s.runtime n).Extends (Shared.runtime { s.toShared with
        runtimes := s.runtimes ++ [r] } n) := by
      intro n k v hv
      rcases Nat.lt_or_ge n s.runtimes.length with hn | hn
      · refine ⟨v, ?_, rfl, rfl⟩
        rwa [runtime_append_lt (s := s.toShared) (r := r) rfl hn]
      · rw [(runtime_append_ge (s := s.toShared) (t := { s.toShared with
          runtimes := s.runtimes ++ [r] }) rfl hn).1] at hv
        cases hv
    refine ⟨hshape, hruntimes, fun n => ?_, hs.keeps.mono (revisions_implies hgrow) fun _ _ h => h⟩
    show (Shared.runtime { s.toShared with runtimes := s.runtimes ++ [r] } n).Coherent
    rcases Nat.lt_or_ge n s.runtimes.length with hn | hn
    · rw [runtime_append_lt (s := s.toShared) (r := r) rfl hn]
      exact hs.memos n
    · rcases (runtime_append_ge (s := s.toShared) (t := { s.toShared with
          runtimes := s.runtimes ++ [r] }) rfl hn).2 with ⟨hr, _⟩ | hr
      · rw [hr]
        exact hopens
      · rw [hr]
        exact coherent_new
  | @call runtime deadline keys hr =>
    refine ⟨hshape, hruntimes, hs.memos, ?_⟩
    refine (@Stepped.call _ _ _ b s runtime deadline keys hr).keeps hs.shape hs.keeps ?_ ?_ ?_
    · intro i e f m hlabel
      cases hlabel
    · intro i e f m g hlabel
      cases hlabel
    · intro _ _ _ _ _ _
      trivial
  | external => exact ⟨hshape, hruntimes, hs.memos, hs.keeps⟩

/-! ## Snapshots -/

/-- In every run in which nothing joins another session's flight and every stored value is admitted:
what a resolution returns is coherent. -/
theorem snapshot_coherent (b : Builder K V) {now : ℚ} {cache : AsyncMemoryCache K V}
    {revisions : List (Dict K ℕ)} {ls : List (Label K V)} {t : State K V}
    (h : RunOf b.step (StepsCoherently b) (State.initial now cache revisions) ls t) {i : ℕ}
    {c : Scope K} {keys : List K} {l : ManyLocals K V}
    (hf : t.frame? i = some ⟨c, .resolveMany keys l .done⟩) {j k : K} {v w : SnapshotValue K V}
    {n : ℕ} (hv : l.values.get? j = some v) (hn : v.dependencyVersions.get? k = some n)
    (hw : l.values.get? k = some w) : n = w.version := by
  have ht : CoherentState b t := h.invariant (CoherentState b)
    (fun s l u hl hs hstep => (step_cases hstep).coherentState hl hs)
    (coherentState_initial b now cache revisions)
  have hholds := (ht.keeps i _ hf trivial).1
  obtain ⟨x, hx, _, hdeps⟩ := hholds.values j v hv
  obtain ⟨y, hy, hversion, _⟩ := hholds.values k w hw
  rw [← hversion]
  exact (ht.memos c.runtime).agrees j x hx k n y (hdeps ▸ hn) hy

end

/-! ## A key acquired twice -/

/-- What a frame is about to store. -/
def storing (b : Builder ℕ ℕ) (s : State ℕ ℕ) (body : Body ℕ ℕ) : Option (ℕ × SnapshotValue ℕ ℕ) :=
  match body with
  | .resolveMany _ l (.collecting (k :: _)) =>
    match l.results.get? k with
    | some (.ok v) => some (k, v)
    | _ => none
  | .resolveOwned _ _ (.harvesting source _ attempts (k :: _) _) =>
    match (Dict.find attempts k).map (b.harvest s.now s.revisions.length source k) with
    | some (.fresh v _) => some (k, v)
    | _ => none
  | .resolveOwned _ l (.finishing (k :: _) _) => (l.bestStale.get? k).map fun v => (k, v)
  | body => body.installing

theorem storing_of_installs {b : Builder ℕ ℕ} {s : State ℕ ℕ} {body : Body ℕ ℕ} {k : ℕ}
    {v : SnapshotValue ℕ ℕ} (h : Installs b s body k v) : storing b s body = some (k, v) := by
  cases h with
  | @copied body k v hcopy =>
    cases body with
    | resolveMany keys l p => cases p <;> first | exact hcopy | cases hcopy
    | resolveOwned keys l p => cases p <;> first | exact hcopy | cases hcopy
    | _ => cases hcopy
  | collected hres => simp only [storing, hres]
  | accepted ha hh => simp only [storing, ha, Option.map_some, hh]
  | kept hb => simp only [storing, hb, Option.map_some]

/-- A check for `Admits` where nothing comes from the cache. -/
def admitsUncached (r : ResolutionRuntime ℕ ℕ) (k : ℕ) (v : SnapshotValue ℕ ℕ) : Bool :=
  !v.fromCache && r.memo.entries.all (fun e => !e.2.fromCache) &&
    (r.memo.get? k).all fun w => decide (w.version = v.version ∧
      w.dependencyVersions.entries = v.dependencyVersions.entries)

theorem admits_of_uncached {r : ResolutionRuntime ℕ ℕ} {k : ℕ} {v : SnapshotValue ℕ ℕ}
    (h : admitsUncached r k v = true) : r.Admits k v := by
  unfold admitsUncached at h
  rw [Bool.and_eq_true, Bool.and_eq_true, Bool.not_eq_true'] at h
  obtain ⟨⟨hv, hentries⟩, honce⟩ := h
  constructor
  · intro w hw
    rw [hw, Option.all_some, decide_eq_true_eq] at honce
    exact ⟨honce.1, Dict.ext honce.2⟩
  · intro hcache
    rw [hv] at hcache
    cases hcache
  · intro j w n hw hcache
    have hall := List.all_eq_true.mp hentries (j, w) (Dict.mem_entries.mpr hw)
    rw [Bool.not_eq_true', hcache] at hall
    cases hall

/-- A check for `StepsCoherently` where nothing joins and nothing comes from the cache. -/
def stepsUncached (b : Builder ℕ ℕ) (s : State ℕ ℕ) : Label ℕ ℕ → Bool
  | .run i .go => (s.frame? i).all fun f =>
      f.body.reserving.all (fun key => (s.tasks.get? key).isNone) &&
        (storing b s f.body).all fun e => admitsUncached (s.runtime f.scope.runtime) e.1 e.2
  | .openRuntime r => r.memo.entries.isEmpty
  | _ => true

theorem stepsCoherently_of_uncached {b : Builder ℕ ℕ} {s : State ℕ ℕ} {l : Label ℕ ℕ}
    (h : stepsUncached b s l = true) : StepsCoherently b s l := by
  constructor
  · rintro i f q key cp owned rfl hf hkey hq _
    simp only [stepsUncached, hf, Option.all_some, Bool.and_eq_true, List.all_eq_true] at h
    have hnone := h.1 key hkey
    rw [hq] at hnone
    cases hnone
  · rintro i f k v rfl hf hi
    simp only [stepsUncached, hf, Option.all_some, Bool.and_eq_true, storing_of_installs hi] at h
    exact admits_of_uncached h.2
  · cases l with
    | openRuntime r =>
      have hempty : ∀ k, r.memo.get? k = none := by
        intro k
        rw [stepsUncached, List.isEmpty_iff] at h
        cases hk : r.memo.get? k with
        | none => rfl
        | some v =>
          have hmem := Dict.mem_entries.mpr hk
          rw [h] at hmem
          cases hmem
      constructor
      · intro k v hv
        rw [hempty k] at hv
        cases hv
      · intro k v hv
        rw [hempty k] at hv
        cases hv
    | _ => trivial

/-- Versions and dependency versions of a finished resolution. -/
def State.deliveredVersions (s : State ℕ ℕ) (i : ℕ) : Option (List (ℕ × ℕ × List (ℕ × ℕ))) :=
  match s.frame? i with
  | some ⟨_, .resolveMany _ l .done⟩ =>
    some (l.values.entries.map fun e => (e.1, e.2.version, e.2.dependencyVersions.entries))
  | _ => none

theorem frame_of_delivered {s : State ℕ ℕ} {i : ℕ} {entries : List (ℕ × ℕ × List (ℕ × ℕ))}
    (h : s.deliveredVersions i = some entries) : ∃ c keys l,
      s.frame? i = some ⟨c, .resolveMany keys l .done⟩ ∧ ∀ e ∈ entries, ∃ v,
        l.values.get? e.1 = some v ∧ v.version = e.2.1 ∧ v.dependencyVersions.entries = e.2.2 := by
  unfold State.deliveredVersions at h
  split at h
  · rename_i c keys l hf
    rw [Option.some.injEq] at h
    subst h
    refine ⟨c, keys, l, hf, fun e he => ?_⟩
    obtain ⟨x, hx, rfl⟩ := List.mem_map.mp he
    exact ⟨x.2, Dict.mem_entries.mp hx, rfl, rfl⟩
  · cases h

/-- A build of a derived key and of what it is derived from. -/
def derivedWithSource : List (Label ℕ ℕ) :=
  [.openRuntime .new, .call 0 none [2, 1]] ++
    turns [(0, 7), (1, 1), (2, 2), (3, 1), (4, 5), (5, 3)] ++
    [.run 6 (.answer (Dict.empty.set 1 ⟨7, none⟩))] ++ turns [(5, 8), (4, 3), (3, 2)] ++
    [.run 3 (.answer (Dict.empty.set 2 ⟨8, none⟩))] ++ turns [(2, 8), (1, 3), (0, 4)]

theorem snapshot_coherent_derived : ∃ (t : State ℕ ℕ) (c : Scope ℕ) (keys : List ℕ)
    (l : ManyLocals ℕ ℕ) (v w : SnapshotValue ℕ ℕ),
    RunOf chainBuilder.step (StepsCoherently chainBuilder) coldState derivedWithSource t ∧
      t.frame? 0 = some ⟨c, .resolveMany keys l .done⟩ ∧ l.values.get? 2 = some v ∧
      l.values.get? 1 = some w ∧ v.dependencyVersions.get? 1 = some 0 ∧ 0 = w.version := by
  have hend : (execOf chainBuilder.step (stepsUncached chainBuilder) coldState
      derivedWithSource).map (fun t => decide (t.deliveredVersions 0 =
        some [(2, 1, [(1, 0)]), (1, 0, [])])) = some true := by
    decide +kernel
  obtain ⟨t, ht, hdelivered⟩ := Option.map_eq_some_iff.mp hend
  rw [decide_eq_true_eq] at hdelivered
  have hrun := (execOf_run ht).mono fun _ _ => stepsCoherently_of_uncached
  obtain ⟨c, keys, l, hf, hvalues⟩ := frame_of_delivered hdelivered
  obtain ⟨v, hv, _, hdeps⟩ := hvalues (2, 1, [(1, 0)]) (by simp)
  obtain ⟨w, hw, _, _⟩ := hvalues (1, 0, []) (by simp)
  have hn : v.dependencyVersions.get? 1 = some 0 := by
    apply Dict.mem_entries.mp
    rw [hdeps]
    exact List.mem_singleton_self _
  exact ⟨t, c, keys, l, v, w, hrun, hf, hv, hw, hn, snapshot_coherent chainBuilder hrun hf hv hn hw⟩

/-- Keys 0 and 1 are derived from key 2. -/
def sharedDependencies : ℕ → List ℕ
  | 0 => [2]
  | 1 => [2]
  | _ => []

def sharedBuilder : Builder ℕ ℕ :=
  .layered sharedDependencies (.blocking 10 20 ten_nonneg ten_le_twenty) id

theorem sharedBuilder_acyclic : Acyclic sharedBuilder.DependsOn := by
  refine Acyclic.of_rank (fun key => if key = 2 then 0 else 1) ?_
  intro key dependency h
  rw [sharedBuilder, Builder.layered_dependsOn] at h
  unfold sharedDependencies at h
  split at h <;> simp_all

/-- A build of all three keys whose derived workers take turns. -/
def twoDerived : List (Label ℕ ℕ) :=
  [.openRuntime .new, .call 0 none [0, 1, 2]] ++
    turns [(0, 8), (1, 1), (2, 3), (3, 1), (4, 1), (5, 5), (6, 5), (7, 3), (8, 3)] ++
    [.run 9 (.answer (Dict.empty.set 2 ⟨7, none⟩))] ++ turns [(7, 8), (5, 3), (3, 2)] ++
    [.run 3 (.answer (Dict.empty.set 0 ⟨8, none⟩)), .run 10 (.answer (Dict.empty.set 2 ⟨7, none⟩))] ++
    turns [(8, 8), (6, 3), (4, 2)] ++ [.run 4 (.answer (Dict.empty.set 1 ⟨8, none⟩))] ++
    turns [(2, 9), (1, 5), (0, 5)]

/-- One build on an empty cache fetches key 2 for key 0 and again for key 1, and delivers key 0 with
another revision of key 2 than the one beside it. -/
theorem snapshot_mixes_revisions : Acyclic sharedBuilder.DependsOn ∧
    ∃ (t : State ℕ ℕ) (c : Scope ℕ) (keys : List ℕ) (l : ManyLocals ℕ ℕ) (v w : SnapshotValue ℕ ℕ),
    Run sharedBuilder.step coldState twoDerived t ∧
      t.frame? 0 = some ⟨c, .resolveMany keys l .done⟩ ∧ l.values.get? 0 = some v ∧
      l.values.get? 2 = some w ∧ v.dependencyVersions.get? 2 = some 0 ∧ w.version = 1 := by
  refine ⟨sharedBuilder_acyclic, ?_⟩
  have hend : (exec sharedBuilder.step coldState twoDerived).map (fun t => decide
      (t.deliveredVersions 0 = some [(0, 2, [(2, 0)]), (1, 3, [(2, 1)]), (2, 1, [])])) =
        some true := by
    decide +kernel
  obtain ⟨t, ht, hdelivered⟩ := Option.map_eq_some_iff.mp hend
  rw [decide_eq_true_eq] at hdelivered
  obtain ⟨c, keys, l, hf, hvalues⟩ := frame_of_delivered hdelivered
  obtain ⟨v, hv, _, hdeps⟩ := hvalues (0, 2, [(2, 0)]) (by simp)
  obtain ⟨w, hw, hversion, _⟩ := hvalues (2, 1, []) (by simp)
  refine ⟨t, c, keys, l, v, w, exec_run ht, hf, hv, hw, ?_, hversion⟩
  apply Dict.mem_entries.mp
  rw [hdeps]
  exact List.mem_singleton_self _

end Coalestra
